-- Rename onto a name that is taken. Rename looks at the inode that it replaces only in a
-- directory with the sticky bit, and there it takes away the bucket of whatever has the bit
-- of a directory and panics at the rest, so only some names are replaced cleanly.
import Dbfs2.Renames

namespace dbfs2

open common Tx inode

/-! ## A clean replacement -/

namespace Db

/-- A directory with an entry besides its dots. -/
def NonEmpty (db : Db) (n : UInt64) : Prop :=
  db.IsDir n ∧ ∃ k, Proper k ∧ is_data_key k = true ∧ (db.get n k).isSome = true

def Sticky (db : Db) (n : UInt64) : Prop :=
  ∃ mode, db.u16 n .mode = some mode ∧ DbfsPermission.contains mode .S_ISVTX = true

/-- What rename takes for an empty directory, with a single name. -/
def PassesForDir (db : Db) (n : UInt64) : Prop :=
  (∃ mode, db.u16 n .mode = some mode ∧ DbfsPermission.contains mode .S_IFDIR = true) ∧
    (∃ size, db.usize n .size = some size ∧ size ≤ 2) ∧ db.u32 n .hard_links = some 1

end Db

/-- The checks that rename makes before it judges the target `j`: the requester may write in
both directories and take `i`, and also `j` where the sticky bit asks for that. -/
structure RenameChecks (db : Db) (uid gid : UInt32) (old_dir i new_dir j : UInt64) : Prop where
  out : db.Grants old_dir uid gid
  take : db.MayTake old_dir i uid
  has_gid : (db.u32 i .gid).isSome = true
  has_mode : (db.u16 i .mode).isSome = true
  into : db.Grants new_dir uid gid
  drop : db.Sticky new_dir → db.MayTake new_dir j uid

/-- All the checks: what has the bit of a directory and gets another parent must be writable. -/
structure RenameAllowed (db : Db) (uid gid : UInt32) (old_dir i new_dir j : UInt64) : Prop
    extends RenameChecks db uid gid old_dir i new_dir j where
  parent (i_uid i_gid : UInt32) (i_mode : DbfsPermission) : db.u32 i .uid = some i_uid →
    db.u32 i .gid = some i_gid → db.u16 i .mode = some i_mode →
    i_mode.contains .S_IFDIR = true → old_dir ≠ new_dir →
    checkout_access i_uid i_gid (i_mode &&& 0o777) uid gid ACCESS_W_OK = true

/-- The name of `j` has become the name of `i`, and `j` has one link less. -/
structure Replaced (db db' : Db) (old_dir : UInt64) (old_name : String) (new_dir : UInt64)
    (new_name : String) (i j : UInt64) : Prop where
  gone : db'.get old_dir (generate_data_key old_name) = none
  bound : db'.entry new_dir new_name = some i
  dir : db.IsDir j → ¬ db'.Has j
  links : ¬ db.IsDir j → ∃ l, db.u32 j .hard_links = some l ∧
    if l = 1 then ¬ db'.Has j else db'.u32 j .hard_links = some (l - 1)
  names : Names db'

/-- A directory that is not empty is not replaced; anything else is, when the checks pass. -/
structure RenamesCleanly (s : Sys) (uid gid : UInt32) (old_dir : UInt64) (old_name : String)
    (new_dir : UInt64) (new_name : String) (i j : UInt64) (ctime : DbfsTimeSpec) : Prop where
  full : s.db.NonEmpty j →
    dbfs_common_rename uid gid old_dir old_name new_dir new_name 0 ctime s = (.Err .NotEmpty, s)
  free : ¬ s.db.NonEmpty j → RenameAllowed s.db uid gid old_dir i new_dir j → ∃ db',
    dbfs_common_rename uid gid old_dir old_name new_dir new_name 0 ctime s =
      (.Ok (), { s with db := db' }) ∧ Replaced s.db db' old_dir old_name new_dir new_name i j

/-- When that is so. -/
structure Replaceable (db : Db) (uid gid : UInt32) (old_dir : UInt64) (old_name : String)
    (new_dir : UInt64) (new_name : String) (i j : UInt64) : Prop where
  full : db.NonEmpty j → db.Sticky new_dir ∧ RenameChecks db uid gid old_dir i new_dir j ∧
    ∃ size, db.usize j .size = some size ∧ 2 < size
  free : ¬ db.NonEmpty j → RenameAllowed db uid gid old_dir i new_dir j →
    (old_name ≠ "." ∧ old_name ≠ ".." ∧ new_name ≠ "." ∧ new_name ≠ "..") ∧
      db.Sticky new_dir ∧ (db.IsDir j ∨ db.PassesForDir j)

/-! ## What rename reads -/

section reads

variable {db db' : Db} {uid gid : UInt32} {old_dir new_dir i j : UInt64} {name : String}
  {old : RenameOld} {new : RenameNew}

theorem rename_old_tx_iff (hi : db.entry old_dir name = some i) :
    rename_old_tx uid gid old_dir name db = .Ok (old, db') ↔
      db.Grants old_dir uid gid ∧ db.MayTake old_dir i uid ∧ old.number = i ∧
        db.u32 i .uid = some old.uid ∧ db.u32 i .gid = some old.gid ∧
        db.u16 i .mode = some old.perm ∧ db' = db := by
  obtain ⟨value, hvalue, hparse⟩ := Option.bind_eq_some_iff.mp hi
  simp only [rename_old_tx, bind_ok, get_bucket_ok, get_kv_ok]
  constructor
  · rintro ⟨_, _, ⟨_, rfl⟩, _, _, ⟨_, rfl, rfl⟩, h⟩
    simp [hvalue, hparse] at h
    obtain ⟨p_uid, huid, p_gid, hgid, p_mode, hmode, hacc, _, i_uid, hiuid, hsticky, i_gid, higid,
      i_mode, ⟨himode, rfl⟩, rfl⟩ := h
    exact ⟨⟨p_uid, p_gid, p_mode, huid, hgid, hmode, hacc⟩,
      ⟨p_uid, p_mode, i_uid, huid, hmode, hiuid, hsticky⟩, rfl, hiuid, higid, himode, rfl⟩
  · rintro ⟨⟨p_uid, p_gid, p_mode, huid, hgid, hmode, hacc⟩,
      ⟨p_uid', p_mode', i_uid, huid', hmode', hiuid, hsticky⟩, rfl, hold_uid, hold_gid, hold_perm,
      rfl⟩
    cases huid.symm.trans huid'
    cases hmode.symm.trans hmode'
    cases hiuid.symm.trans hold_uid
    have hhas := Db.has_of_u32 huid
    refine ⟨(), _, ⟨hhas, rfl⟩, _, _, ⟨hhas, rfl, rfl⟩, ?_⟩
    simp [hvalue, hparse, huid, hgid, hmode, hacc, Db.has_of_u32 hiuid, hiuid, hsticky, hold_gid,
      hold_perm]

/-- In a directory with the sticky bit, rename reads the target. -/
theorem rename_new_tx_iff (hj : db.entry new_dir name = some j) (hsticky : db.Sticky new_dir) :
    rename_new_tx uid gid new_dir name db = .Ok (new, db') ↔
      db.Grants new_dir uid gid ∧ db.MayTake new_dir j uid ∧ new.number = some j ∧
        db.u16 j .mode = some new.perm ∧ db.usize j .size = some new.size ∧ db' = db := by
  obtain ⟨value, hvalue, hparse⟩ := Option.bind_eq_some_iff.mp hj
  obtain ⟨mode, hmode, hbit⟩ := hsticky
  have hhas := Db.has_of_u16 hmode
  simp only [rename_new_tx, bind_ok, get_bucket_ok, read_u32_ok, read_u16_ok, ensure_ok, get_kv_ok]
  constructor
  · rintro ⟨_, _, ⟨_, rfl⟩, p_uid, _, ⟨huid, rfl⟩, p_gid, _, ⟨hgid, rfl⟩, _, _, ⟨hmode', rfl⟩, _, _,
      ⟨hacc, rfl⟩, _, _, ⟨_, rfl, rfl⟩, h⟩
    cases hmode.symm.trans hmode'
    simp [hbit, hvalue, hparse] at h
    obtain ⟨_, j_uid, hjuid, hdeny, j_mode, hjmode, j_size, ⟨hjsize, rfl⟩, rfl⟩ := h
    refine ⟨⟨p_uid, p_gid, mode, huid, hgid, hmode, hacc⟩,
      ⟨p_uid, mode, j_uid, huid, hmode, hjuid, ?_⟩, rfl, hjmode, hjsize, rfl⟩
    simp only [sticky_ok, hbit, Bool.true_and]
    simpa using hdeny
  · rintro ⟨⟨p_uid, p_gid, p_mode, huid, hgid, hmode', hacc⟩,
      ⟨p_uid', p_mode', j_uid, huid', hmode'', hjuid, hok⟩, hnumber, hperm, hsize, rfl⟩
    obtain ⟨_, perm, size⟩ := new
    subst hnumber
    cases hmode.symm.trans hmode'
    cases hmode.symm.trans hmode''
    cases huid.symm.trans huid'
    refine ⟨(), _, ⟨hhas, rfl⟩, p_uid, _, ⟨huid, rfl⟩, p_gid, _, ⟨hgid, rfl⟩, mode, _,
      ⟨hmode, rfl⟩, (), _, ⟨hacc, rfl⟩, _, _, ⟨hhas, rfl, rfl⟩, ?_⟩
    simp only [sticky_ok, hbit, Bool.true_and] at hok
    rw [hvalue, if_pos hbit]
    simp [hparse, Db.has_of_u32 hjuid, hjuid, hperm, hsize]
    simpa using hok

/-- It sees no target elsewhere, and none under a free name. -/
theorem rename_new_tx_unseen
    (h : db.Sticky new_dir → db.get new_dir (generate_data_key name) = none) :
    rename_new_tx uid gid new_dir name db = .Ok (new, db') ↔
      db.Grants new_dir uid gid ∧ new = ⟨none, 0, 0⟩ ∧ db' = db := by
  have hseen : ∀ mode, db.u16 new_dir .mode = some mode →
      (if DbfsPermission.contains mode .S_ISVTX then db.get new_dir (generate_data_key name)
        else none) = none := by
    intro mode hmode
    split_ifs with hbit
    · exact h ⟨mode, hmode, hbit⟩
    · rfl
  simp only [rename_new_tx, bind_ok, get_bucket_ok, read_u32_ok, read_u16_ok, ensure_ok, get_kv_ok]
  constructor
  · rintro ⟨_, _, ⟨_, rfl⟩, p_uid, _, ⟨huid, rfl⟩, p_gid, _, ⟨hgid, rfl⟩, mode, _, ⟨hmode, rfl⟩, _,
      _, ⟨hacc, rfl⟩, _, _, ⟨_, rfl, rfl⟩, h⟩
    rw [hseen mode hmode] at h
    exact ⟨⟨p_uid, p_gid, mode, huid, hgid, hmode, hacc⟩, by simpa using h⟩
  · rintro ⟨⟨p_uid, p_gid, mode, huid, hgid, hmode, hacc⟩, rfl, rfl⟩
    have hhas := Db.has_of_u16 hmode
    refine ⟨(), _, ⟨hhas, rfl⟩, p_uid, _, ⟨huid, rfl⟩, p_gid, _, ⟨hgid, rfl⟩, mode, _,
      ⟨hmode, rfl⟩, (), _, ⟨hacc, rfl⟩, _, _, ⟨hhas, rfl, rfl⟩, ?_⟩
    rw [hseen mode hmode]
    simp

theorem rename_new_tx_plain (hsticky : ¬ db.Sticky new_dir) :
    rename_new_tx uid gid new_dir name db = .Ok (new, db') ↔
      db.Grants new_dir uid gid ∧ new = ⟨none, 0, 0⟩ ∧ db' = db :=
  rename_new_tx_unseen fun h => absurd h hsticky

theorem rename_new_tx_db (hj : db.entry new_dir name = some j)
    (h : rename_new_tx uid gid new_dir name db = .Ok (new, db')) : db' = db := by
  by_cases hsticky : db.Sticky new_dir
  · exact ((rename_new_tx_iff hj hsticky).mp h).2.2.2.2.2
  · exact ((rename_new_tx_plain hsticky).mp h).2.2

/-- Rename without flags, once it has read both places. -/
theorem rename_run {s : Sys} {old_name new_name : String} {t : DbfsTimeSpec}
    (hold : rename_old_tx uid gid old_dir old_name s.db = .Ok (old, s.db))
    (hnew : rename_new_tx uid gid new_dir new_name s.db = .Ok (new, s.db)) :
    dbfs_common_rename uid gid old_dir old_name new_dir new_name 0 t s =
      if new.number.isSome = true ∧ new.perm.contains .S_IFDIR = true ∧ 2 < new.size then
        (.Err .NotEmpty, s)
      else if old.perm.contains .S_IFDIR = true ∧ old_dir ≠ new_dir ∧
          checkout_access old.uid old.gid (old.perm &&& 0o777) uid gid ACCESS_W_OK = false then
        (.Err .AccessError, s)
      else Fs.write (rename_move_tx old_dir old_name new_dir new_name old new t) s := by
  have hfull : (!(new.number.isSome && new.perm.contains .S_IFDIR && decide (2 < new.size))) =
      true ↔ ¬ (new.number.isSome = true ∧ new.perm.contains .S_IFDIR = true ∧ 2 < new.size) := by
    rw [Bool.not_eq_true', ← Bool.not_eq_true]
    simp only [Bool.and_eq_true, decide_eq_true_eq, and_assoc]
  have hparent : (!(old.perm.contains .S_IFDIR && old_dir != new_dir &&
      !checkout_access old.uid old.gid (old.perm &&& 0o777) uid gid ACCESS_W_OK)) = true ↔
      ¬ (old.perm.contains .S_IFDIR = true ∧ old_dir ≠ new_dir ∧
        checkout_access old.uid old.gid (old.perm &&& 0o777) uid gid ACCESS_W_OK = false) := by
    rw [Bool.not_eq_true', ← Bool.not_eq_true]
    simp only [Bool.and_eq_true, bne_iff_ne, Bool.not_eq_true', and_assoc]
  unfold dbfs_common_rename
  rw [Fs.bind_read, hold]
  simp only [Fs.bind_read, hnew]
  rw [if_neg (not_not.mpr (UInt32.zero_and ..))]
  simp only [Fs.bind_ensure, hfull, hparent, ite_not]

/-! Only the look at the target ends in `NotEmpty`. -/

theorem rename_old_tx_ne : rename_old_tx uid gid old_dir name db ≠ .Err .NotEmpty := by
  intro h
  simp only [rename_old_tx, bind_err, get_bucket_err, get_bucket_ok, get_kv_err, get_kv_ok] at h
  obtain ⟨_, h⟩ | ⟨_, _, _, h | ⟨value, _, _, h⟩⟩ := h
  · cases h
  · exact h
  · rcases value with _ | value <;> simp at h

theorem rename_new_tx_ne : rename_new_tx uid gid new_dir name db ≠ .Err .NotEmpty := by
  intro h
  simp only [rename_new_tx, bind_err, get_bucket_err, get_bucket_ok, get_kv_err, get_kv_ok,
    read_u32_err, read_u16_err, ensure_err, false_or, reduceCtorEq, and_false] at h
  obtain ⟨_, _, _, _, _, _, _, _, _, mode, _, _, _, _, _, value, _, _, h⟩ := h
  rcases hseen : (if DbfsPermission.contains mode DbfsPermission.S_ISVTX then value else none)
    with _ | v
  · rw [hseen] at h
    simp at h
  · rw [hseen] at h
    simp at h

theorem rename_move_tx_ne {old_name new_name : String} {t : DbfsTimeSpec} :
    rename_move_tx old_dir old_name new_dir new_name old new t db ≠ .Err .NotEmpty := by
  intro h
  rcases hn : new.number with _ | number
  · simp [rename_move_tx, rename_size, hn] at h
  · simp [rename_move_tx, rename_replace_tx, rename_size, hn] at h

theorem rename_not_empty_iff {s : Sys} {old_name new_name : String} {t : DbfsTimeSpec}
    (hi : s.db.entry old_dir old_name = some i) (hj : s.db.entry new_dir new_name = some j) :
    dbfs_common_rename uid gid old_dir old_name new_dir new_name 0 t s = (.Err .NotEmpty, s) ↔
      ∃ old new, rename_old_tx uid gid old_dir old_name s.db = .Ok (old, s.db) ∧
        rename_new_tx uid gid new_dir new_name s.db = .Ok (new, s.db) ∧
        new.number.isSome = true ∧ new.perm.contains .S_IFDIR = true ∧ 2 < new.size := by
  constructor
  · intro h
    have hrun := h
    unfold dbfs_common_rename at h
    obtain ⟨hold, _⟩ | ⟨old, db₁, hold, h⟩ := Fs.bind_read_err.mp h
    · exact absurd hold rename_old_tx_ne
    · obtain ⟨hnew, _⟩ | ⟨new, db₂, hnew, _⟩ := Fs.bind_read_err.mp h
      · exact absurd hnew rename_new_tx_ne
      · obtain ⟨_, _, _, _, _, _, rfl⟩ := (rename_old_tx_iff hi).mp hold
        have hdb := rename_new_tx_db hj hnew
        subst hdb
        rw [rename_run hold hnew] at hrun
        split_ifs at hrun with hfull hparent
        · exact ⟨old, new, hold, hnew, hfull⟩
        · cases hrun
        · exact absurd (Fs.write_err.mp hrun).1 rename_move_tx_ne
  · rintro ⟨old, new, hold, hnew, hfull⟩
    rw [rename_run hold hnew, if_pos hfull]

end reads

/-! ## The target taken away -/

section removed

variable {db db₁ : Db} {uid gid : UInt32} {dir j : UInt64} {name : String} {size : Nat}

theorem unlink_removed {t : DbfsTimeSpec}
    (htx : unlink_tx uid gid dir name none t db = .Ok ((), db₁)) (hj : db.entry dir name = some j)
    (hsize : db.usize dir .size = some size) (hlink : db.u32 j .hard_links = some 1) :
    Removed db db₁ dir name j size := by
  obtain ⟨_, i, size', links, hi, _, hsize', _, hlink', hdb⟩ := unlink_tx_spec htx
  cases hj.symm.trans hi
  cases hsize.symm.trans hsize'
  cases hlink.symm.trans hlink'
  obtain ⟨_, hdb⟩ := hdb.resolve_right (fun e => e.1 rfl)
  have hlt : size - 1 < 2 ^ 64 := by
    have := Db.lt_of_usize hsize
    omega
  refine ⟨⟨fun n => ?_, fun n hn => ?_, fun n k hn hk => ?_⟩, fun n hn => ?_, fun n hn => ?_⟩
  · simp [hdb]
  · simp [hdb, hn]
  · have hf : ∀ f : Field, k ≠ f.key := fun f => ne_of_is_data_key hk (by simp)
    simp [hdb, edited, hf, hn]
  · simp [hdb, hn]
  · simp [hdb, hn, Db.has_of_usize hsize, usize_be hlt]

/-- What a requester may replace, the same requester may remove: an empty directory by `rmdir`,
another inode with one name by `unlink`. -/
theorem removed_names (h : Names db) (hdir : db.IsDir dir) (hj : db.entry dir name = some j)
    (h1 : name ≠ ".") (h2 : name ≠ "..") (hgrant : db.Grants dir uid gid)
    (htake : db.MayTake dir j uid) (hsize : db.usize dir .size = some size) (hpos : 1 ≤ size)
    (hend : (db.IsDir j ∧ ∃ z, db.usize j .size = some z ∧ z ≤ 2) ∨
      (¬ db.IsDir j ∧ db.u32 j .hard_links = some 1)) :
    ∃ db₁, Names db₁ ∧ Removed db db₁ dir name j size := by
  obtain ⟨value, hvalue, hparse⟩ := Option.bind_eq_some_iff.mp hj
  obtain ⟨p_uid, p_gid, p_mode, huid, hgid, hmode, hacc⟩ := hgrant
  obtain ⟨p_uid', p_mode', j_uid, huid', hmode', hjuid, hsticky⟩ := htake
  cases huid.symm.trans huid'
  cases hmode.symm.trans hmode'
  have hhas := Db.has_of_isDir hdir
  have hhj := Db.has_of_u32 hjuid
  rcases hend with ⟨hd, z, hz, hle⟩ | ⟨hnd, hlink⟩
  · obtain ⟨db₁, htx⟩ : ∃ db₁, rmdir_tx uid gid dir name .default db = .Ok ((), db₁) := by
      simp [rmdir_tx, hvalue, hparse, hhas, hhj, hz, hle, huid, hgid, hmode, hsize, hacc, hjuid,
        hsticky, hpos]
    refine ⟨db₁, (rmdir_names h htx hdir (fun i hi => ?_) h1 h2).1, rmdir_removed htx hj hsize⟩
    cases hj.symm.trans hi
    exact hd
  · obtain ⟨db₁, htx⟩ : ∃ db₁, unlink_tx uid gid dir name none .default db = .Ok ((), db₁) := by
      simp [unlink_tx, hvalue, hparse, hhas, hhj, huid, hgid, hmode, hsize, hacc, hjuid, hsticky,
        hpos, hlink]
    refine ⟨db₁, (unlink_names h htx hdir (fun i hi => ?_) h1 h2).1,
      unlink_removed htx hj hsize hlink⟩
    cases hj.symm.trans hi
    exact hnd

end removed

/-! ## The move onto the name -/

section replaced

variable {db db₁ db' : Db} {uid gid : UInt32} {old_dir new_dir i j : UInt64}
  {old_name new_name : String} {old : RenameOld} {new : RenameNew} {t : DbfsTimeSpec}
  {old_size new_size : Nat}

/-- The database that the move leaves when it deletes the bucket of the target. -/
def rename_replaced (db : Db) (old_dir : UInt64) (old_name : String) (new_dir : UInt64)
    (new_name : String) (old : RenameOld) (j : UInt64) (old_size new_size : Nat)
    (t : DbfsTimeSpec) : Db :=
  rename_moved ((db.delete new_dir (generate_data_key new_name)).drop j) old_dir old_name new_dir
    new_name old old_size (new_size - 1) t

theorem rename_move_tx_replaces (hnumber : new.number = some j)
    (hbit : new.perm.contains .S_IFDIR = true) (hosize : db.usize old_dir .size = some old_size)
    (hopos : 1 ≤ old_size) (hnsize : db.usize new_dir .size = some new_size)
    (hnpos : 1 ≤ new_size) (hold : db.entry old_dir old_name = some old.number)
    (hnew : db.entry new_dir new_name = some j) (hhas : db.Has old.number) (hhj : db.Has j)
    (hoj : old_dir ≠ j) (hnj : new_dir ≠ j) (hij : old.number ≠ j) :
    rename_move_tx old_dir old_name new_dir new_name old new t db =
      .Ok ((), rename_replaced db old_dir old_name new_dir new_name old j old_size new_size t) := by
  obtain ⟨v, hv, hvi⟩ := Option.bind_eq_some_iff.mp hold
  obtain ⟨w, hw, hwj⟩ := Option.bind_eq_some_iff.mp hnew
  have hplace : ¬ (old_dir = new_dir ∧ old_name = new_name) := by
    rintro ⟨rfl, rfl⟩
    cases hold.symm.trans hnew
    exact hij rfl
  have hlt := Db.lt_of_usize hnsize
  simp [rename_move_tx, rename_replace_tx, hnumber, hbit, hosize, hopos, hnsize, hnpos, hv, hw,
    hhas, hhj, hoj, hnj, hij, hplace, Db.has_of_usize hosize, Db.has_of_usize hnsize,
    rename_replaced, rename_moved]
  omega

/-- It is the move of the entry in the database without the target. -/
theorem Removed.moved (hrem : Removed db db₁ new_dir new_name j new_size)
    (hosize : db.usize old_dir .size = some old_size)
    (hnsize : db.usize new_dir .size = some new_size)
    (hhas : db.Has old.number) (hoj : old_dir ≠ j) (hnj : new_dir ≠ j) (hij : old.number ≠ j) :
    Moved db₁ (rename_replaced db old_dir old_name new_dir new_name old j old_size new_size t)
      old_dir old_name new_dir new_name old (if old_dir = new_dir then new_size - 1 else old_size)
      (new_size - 1) := by
  have holt := Db.lt_of_usize hosize
  have hnlt := Db.lt_of_usize hnsize
  have hmoved : Moved ((db.delete new_dir (generate_data_key new_name)).drop j)
      (rename_replaced db old_dir old_name new_dir new_name old j old_size new_size t) old_dir
      old_name new_dir new_name old old_size (new_size - 1) :=
    rename_moved_moved (by simp [hoj, Db.has_of_usize hosize])
      (by simp [hnj, Db.has_of_usize hnsize]) (by omega) (by split_ifs <;> omega)
      (by simp [hij, hhas])
  have hgone : ∀ k, db₁.get j k = none := fun k =>
    Db.get_of_not_has (fun e => ((hrem.has j).mp e).1 rfl) k
  constructor
  · intro n
    rw [hmoved.has, hrem.has]
    simp
  · intro n
    rw [hmoved.mode]
    by_cases hn : n = j
    · simp [hn, Db.u16, hgone]
    · simp [hn, hrem.mode n hn]
  · intro n
    rw [hmoved.links]
    by_cases hn : n = j
    · simp [hn, Db.u32, hgone]
    · simp [hn, hrem.links n hn]
  · intro n
    rw [hmoved.size]
    by_cases hnn : n = new_dir
    · simp [hnn]
    · by_cases hno : n = old_dir
      · subst hno
        simp [hnn]
      · rw [if_neg hnn, if_neg hno, if_neg hnn, if_neg hno]
        by_cases hn : n = j
        · simp [hn, Db.usize, hgone]
        · simp [hn, hnn, hrem.size n hn]
  · intro n k hk
    rw [hmoved.get n k hk]
    congr 1
    by_cases hn : n = j
    · subst hn
      simp [edited, hoj.symm, hnj.symm, hgone]
    · simp [edited, hn, hrem.get n k hn hk]

theorem not_nonEmpty_size (h : Names db) (hj : db.IsDir j) (hempty : ¬ db.NonEmpty j) :
    ∃ size, db.usize j .size = some size ∧ size ≤ 2 := by
  refine ⟨_, h.size j hj, ?_⟩
  have hsub : db.graph.keys j ⊆ {dot, dotdot} := by
    intro k hk
    obtain ⟨i, hi⟩ := Option.ne_none_iff_exists'.mp hk
    obtain ⟨_, hdata, href⟩ := Db.graph_edge_some hi
    obtain ⟨v, hv, _⟩ := Option.bind_eq_some_iff.mp href
    by_contra hne
    simp only [Set.mem_insert_iff, Set.mem_singleton_iff, not_or] at hne
    exact hempty ⟨hj, k, hne, hdata, by simp [hv]⟩
  calc db.graph.size j ≤ ({dot, dotdot} : Set Bytes).ncard := Set.ncard_le_ncard hsub
    _ = 2 := Set.ncard_pair dot_ne_dotdot

/-- A name that refers to something makes its directory one that is not empty. -/
theorem nonEmpty_of_entry {n : UInt64} {name : String} (hn : db.IsDir n) (h1 : name ≠ ".")
    (h2 : name ≠ "..") (h : db.entry n name = some i) : db.NonEmpty n := by
  obtain ⟨v, hv, _⟩ := Option.bind_eq_some_iff.mp h
  exact ⟨hn, _, proper_name h1 h2, by simp, by simp [hv]⟩

/-- A directory with an entry has a stored size for it. -/
theorem Names.size_pos (h : Names db) {n : UInt64} {name : String} (hn : db.IsDir n)
    (he : db.entry n name = some i) : ∃ size, db.usize n .size = some size ∧ 1 ≤ size := by
  refine ⟨_, h.size n hn, ?_⟩
  have hcount := NameGraph.size_unbind h.wf.finite (graph_entry hn he) n
  rw [if_pos rfl] at hcount
  omega

/-- The good case: what has gone is gone, and the rest is as after a move onto a free name. -/
theorem replaced_of_replaceable (old : RenameOld) (t : DbfsTimeSpec) (h : Names db)
    (hod : db.IsDir old_dir) (hnd : db.IsDir new_dir)
    (hold : db.entry old_dir old_name = some old.number) (hj : db.entry new_dir new_name = some j)
    (hne : old.number ≠ j) (hperm : db.u16 old.number .mode = some old.perm)
    (h1 : old_name ≠ ".") (h2 : old_name ≠ "..") (h3 : new_name ≠ ".") (h4 : new_name ≠ "..")
    (hsticky : db.Sticky new_dir) (hgrant : db.Grants new_dir uid gid)
    (htake : db.MayTake new_dir j uid) (hempty : ¬ db.NonEmpty j)
    (hend : db.IsDir j ∨ db.PassesForDir j) :
    ∃ new, rename_new_tx uid gid new_dir new_name db = .Ok (new, db) ∧
      ¬ (new.number.isSome = true ∧ new.perm.contains .S_IFDIR = true ∧ 2 < new.size) ∧
      ∃ db', rename_move_tx old_dir old_name new_dir new_name old new t db = .Ok ((), db') ∧
        Replaced db db' old_dir old_name new_dir new_name old.number j := by
  have hoj : old_dir ≠ j := by
    rintro rfl
    exact hempty (nonEmpty_of_entry hod h1 h2 hold)
  have hnj : new_dir ≠ j := by
    rintro rfl
    exact hempty (nonEmpty_of_entry hnd h3 h4 hj)
  obtain ⟨old_size, hosize, hopos⟩ := h.size_pos hod hold
  obtain ⟨new_size, hnsize, hnpos⟩ := h.size_pos hnd hj
  have hhas : db.Has old.number := h.wf.target (graph_entry hod hold)
  have hhj : db.Has j := h.wf.target (graph_entry hnd hj)
  obtain ⟨⟨mode, hmode, hbit⟩, ⟨z, hz, hle⟩, hgoes⟩ : (∃ mode, db.u16 j .mode = some mode ∧
      DbfsPermission.contains mode .S_IFDIR = true) ∧ (∃ z, db.usize j .size = some z ∧ z ≤ 2) ∧
      (db.IsDir j ∨ db.u32 j .hard_links = some 1) := by
    rcases hend with hd | ⟨hmode, hz, hlink⟩
    · obtain ⟨mode, hmode, hkind⟩ := Option.bind_eq_some_iff.mp hd
      exact ⟨⟨mode, hmode, contains_of_dir hkind⟩, not_nonEmpty_size h hd hempty, .inl hd⟩
    · exact ⟨hmode, hz, .inr hlink⟩
  obtain ⟨db₁, hnames, hrem⟩ := removed_names h hnd hj h3 h4 hgrant htake hnsize hnpos (by
    by_cases hd : db.IsDir j
    · exact .inl ⟨hd, z, hz, hle⟩
    · exact .inr ⟨hd, hgoes.resolve_left hd⟩)
  have hmoved : Moved db₁
      (rename_replaced db old_dir old_name new_dir new_name old j old_size new_size t) old_dir
      old_name new_dir new_name old (if old_dir = new_dir then new_size - 1 else old_size)
      (new_size - 1) := hrem.moved hosize hnsize hhas hoj hnj hne
  have hkey : ∀ n, n ≠ j → (db₁.IsDir n ↔ db.IsDir n) := fun n hn => isDir_congr (hrem.mode n hn)
  have hplace :
      ¬ (old_dir = new_dir ∧ generate_data_key old_name = generate_data_key new_name) := by
    rintro ⟨rfl, hkeys⟩
    rw [Db.entry, hkeys] at hold
    cases hold.symm.trans hj
    exact hne rfl
  have hfree : db₁.get new_dir (generate_data_key new_name) = none := by
    rw [hrem.get _ _ hnj (by simp)]
    simp [edited]
  have hentry : db₁.entry old_dir old_name = some old.number := by
    rw [Db.entry, Db.ref, hrem.get _ _ hoj (by simp), edited, if_neg hplace]
    exact hold
  refine ⟨⟨some j, mode, z⟩, (rename_new_tx_iff hj hsticky).mpr
    ⟨hgrant, htake, rfl, hmode, hz, rfl⟩, fun e => ?_, _,
    rename_move_tx_replaces rfl hbit hosize hopos hnsize hnpos hold hj hhas hhj hoj hnj hne,
    ?_, ?_, fun _ => ?_, fun hd => ⟨1, hgoes.resolve_left hd, ?_⟩, ?_⟩
  · exact absurd e.2.2 (Nat.not_lt.mpr hle)
  · rw [hmoved.get _ _ (by simp), if_neg (fun e => (proper_name h1 h2).2 e.2.2), edited,
      if_neg hplace, edited, if_pos ⟨rfl, rfl⟩]
    rfl
  · refine ref_ino_bytes ?_
    rw [hmoved.get _ _ (by simp), if_neg (fun e => (proper_name h3 h4).2 e.2.2), edited,
      if_pos ⟨rfl, rfl⟩]
    rfl
  · rw [hmoved.has, hrem.has]
    exact fun e => e.1 rfl
  · rw [if_pos rfl, hmoved.has, hrem.has]
    exact fun e => e.1 rfl
  · refine (hmoved.names hnames ?_ ?_ hentry ?_ ((hkey _ hoj).mpr hod) ((hkey _ hnj).mpr hnd) h1 h2
      h3 h4 hfree).1
    · rw [hrem.size _ hoj]
      split_ifs
      · rfl
      · exact hosize
    · rw [hrem.size _ hnj, if_pos rfl]
    · rw [hrem.mode _ hne]
      exact hperm

/-- The link count of an inode that is no directory has four bytes, so it is not read as eight. -/
theorem Names.links_narrow (h : Names db) (hj : db.Has j) (hnd : ¬ db.IsDir j) {links : Nat} :
    db.usize j .hard_links ≠ some links := by
  intro hwide
  obtain ⟨l, hl, _⟩ := h.links j hj hnd
  obtain ⟨v, hv, hfour⟩ := Option.bind_eq_some_iff.mp hl
  obtain ⟨w, hw, height⟩ := Option.bind_eq_some_iff.mp hwide
  cases hv.symm.trans hw
  unfold common.u32 at hfour
  unfold common.usize at height
  split_ifs at hfour height
  omega

/-- A name that is replaced lies in a directory with the sticky bit, and rename has deleted the
bucket of its inode. -/
theorem replaced_dropped (h : Names db) (hnd : db.IsDir new_dir)
    (hold : db.entry old_dir old_name = some i) (hj : db.entry new_dir new_name = some j)
    (hnew : rename_new_tx uid gid new_dir new_name db = .Ok (new, db₁))
    (htx : rename_move_tx old_dir old_name new_dir new_name old new t db = .Ok ((), db'))
    (hrep : Replaced db db' old_dir old_name new_dir new_name i j) :
    db.Sticky new_dir ∧ db.u16 j .mode = some new.perm ∧ db.usize j .size = some new.size ∧
      new.number = some j ∧ new.perm.contains .S_IFDIR = true ∧ ¬ db'.Has j ∧ old_dir ≠ j ∧
      ∀ n, n ≠ j → db'.u16 n .mode = db.u16 n .mode := by
  have hhj : db.Has j := h.wf.target (graph_entry hnd hj)
  obtain ⟨db₂, new_size, old_size, hnone, hsome, _, hosize, _, _, _, _, rfl⟩ :=
    rename_move_tx_eq htx
  have hsticky : db.Sticky new_dir := by
    by_contra hplain
    obtain ⟨_, rfl, _⟩ := (rename_new_tx_plain hplain).mp hnew
    obtain ⟨rfl, _⟩ := hnone rfl
    by_cases hd : db₂.IsDir j
    · exact hrep.dir hd (by simpa [rename_moved] using hhj)
    · obtain ⟨l, hl, hend⟩ := hrep.links hd
      split_ifs at hend with hone
      · exact hend (by simpa [rename_moved] using hhj)
      · have hsame : some l = some (l - 1) := by
          rw [← hl, ← hend]
          simp [rename_moved]
        grind
  obtain ⟨_, _, hnumber, hperm, hsize, _⟩ := (rename_new_tx_iff hj hsticky).mp hnew
  obtain ⟨_, _, hrem⟩ := hsome j hnumber
  obtain ⟨_, _, ⟨hbit, rfl⟩ | ⟨hbit, links, hlinks, _⟩⟩ := rename_replace_tx_eq hrem
  · have hoj : old_dir ≠ j := by
      rintro rfl
      simp at hosize
    refine ⟨hsticky, hperm, hsize, hnumber, hbit, by simp [rename_moved], hoj, fun n hn => ?_⟩
    simp [rename_moved, hn]
  · by_cases hd : db.IsDir j
    · rw [Db.IsDir, Db.kind, hperm] at hd
      rw [contains_of_dir hd] at hbit
      cases hbit
    · exact absurd hlinks (h.links_narrow hhj hd)

/-- The dots of a directory are never replaced cleanly, and their inodes never replace another. -/
theorem replaced_proper (h : Names db) (hod : db.IsDir old_dir) (hnd : db.IsDir new_dir)
    (hold : db.entry old_dir old_name = some i) (hj : db.entry new_dir new_name = some j)
    (hempty : ¬ db.NonEmpty j) (hkind : db'.IsDir old_dir)
    (hrep : Replaced db db' old_dir old_name new_dir new_name i j) :
    old_name ≠ "." ∧ old_name ≠ ".." ∧ new_name ≠ "." ∧ new_name ≠ ".." := by
  have hedge := graph_entry hod hold
  have hgone := graph_free hrep.gone
  refine ⟨?_, ?_, ?_, ?_⟩
  · rintro rfl
    cases (hrep.names.wf.self hkind).symm.trans hgone
  · rintro rfl
    have hroot : old_dir ≠ 1 := by
      rintro rfl
      cases h.wf.root_top.symm.trans hedge
    obtain ⟨p, _, hp, _⟩ := hrep.names.wf.parent hkind hroot
    cases hp.symm.trans hgone
  · rintro rfl
    cases (h.wf.self hnd).symm.trans (graph_entry hnd hj)
    exact hrep.dir hnd (Db.has_of_entry hrep.bound)
  · rintro rfl
    have hedge' := graph_entry hnd hj
    have hroot : new_dir ≠ 1 := by
      rintro rfl
      cases h.wf.root_top.symm.trans hedge'
    obtain ⟨p, k, hp, hk, hpk⟩ := h.wf.parent hnd hroot
    cases hp.symm.trans hedge'
    obtain ⟨hd, hdata, href⟩ := Db.graph_edge_some hpk
    obtain ⟨v, hv, _⟩ := Option.bind_eq_some_iff.mp href
    exact hempty ⟨hd, k, hk, hdata, by simp [hv]⟩

end replaced

/-! ## The law -/

section law

variable {s : Sys} {uid gid : UInt32} {old_dir new_dir i j : UInt64} {old_name new_name : String}

theorem rename_full_iff (hi : s.db.entry old_dir old_name = some i)
    (hj : s.db.entry new_dir new_name = some j) (hfull : s.db.NonEmpty j) (t : DbfsTimeSpec) :
    dbfs_common_rename uid gid old_dir old_name new_dir new_name 0 t s = (.Err .NotEmpty, s) ↔
      s.db.Sticky new_dir ∧ RenameChecks s.db uid gid old_dir i new_dir j ∧
        ∃ size, s.db.usize j .size = some size ∧ 2 < size := by
  rw [rename_not_empty_iff hi hj]
  constructor
  · rintro ⟨old, new, hold, hnew, hsome, _, hlt⟩
    obtain ⟨hgrant, htake, _, _, hgid, hmode, _⟩ := (rename_old_tx_iff hi).mp hold
    by_cases hsticky : s.db.Sticky new_dir
    · obtain ⟨hinto, hdrop, _, _, hsize, _⟩ := (rename_new_tx_iff hj hsticky).mp hnew
      exact ⟨hsticky, ⟨hgrant, htake, by simp [hgid], by simp [hmode], hinto, fun _ => hdrop⟩,
        new.size, hsize, hlt⟩
    · obtain ⟨_, rfl, _⟩ := (rename_new_tx_plain hsticky).mp hnew
      cases hsome
  · rintro ⟨hsticky, hchecks, size, hsize, hlt⟩
    obtain ⟨_, _, i_uid, _, _, hiuid, _⟩ := hchecks.take
    obtain ⟨i_gid, higid⟩ := Option.isSome_iff_exists.mp hchecks.has_gid
    obtain ⟨i_mode, himode⟩ := Option.isSome_iff_exists.mp hchecks.has_mode
    obtain ⟨mode, hmode, hkind⟩ := Option.bind_eq_some_iff.mp hfull.1
    exact ⟨⟨i, i_uid, i_gid, i_mode⟩, ⟨some j, mode, size⟩,
      (rename_old_tx_iff hi).mpr ⟨hchecks.out, hchecks.take, rfl, hiuid, higid, himode, rfl⟩,
      (rename_new_tx_iff hj hsticky).mpr
        ⟨hchecks.into, hchecks.drop hsticky, rfl, hmode, hsize, rfl⟩,
      rfl, contains_of_dir hkind, hlt⟩

theorem rename_free_iff (h : Names s.db) (hod : s.db.IsDir old_dir) (hnd : s.db.IsDir new_dir)
    (hi : s.db.entry old_dir old_name = some i) (hj : s.db.entry new_dir new_name = some j)
    (hne : i ≠ j) (hempty : ¬ s.db.NonEmpty j)
    (hallowed : RenameAllowed s.db uid gid old_dir i new_dir j) (t : DbfsTimeSpec) :
    (∃ db', dbfs_common_rename uid gid old_dir old_name new_dir new_name 0 t s =
        (.Ok (), { s with db := db' }) ∧
        Replaced s.db db' old_dir old_name new_dir new_name i j) ↔
      (old_name ≠ "." ∧ old_name ≠ ".." ∧ new_name ≠ "." ∧ new_name ≠ "..") ∧
        s.db.Sticky new_dir ∧ (s.db.IsDir j ∨ s.db.PassesForDir j) := by
  obtain ⟨_, _, i_uid, _, _, hiuid, _⟩ := hallowed.take
  obtain ⟨i_gid, higid⟩ := Option.isSome_iff_exists.mp hallowed.has_gid
  obtain ⟨i_mode, himode⟩ := Option.isSome_iff_exists.mp hallowed.has_mode
  have hold : rename_old_tx uid gid old_dir old_name s.db =
      .Ok (⟨i, i_uid, i_gid, i_mode⟩, s.db) := (rename_old_tx_iff hi).mpr
    ⟨hallowed.out, hallowed.take, rfl, hiuid, higid, himode, rfl⟩
  constructor
  · rintro ⟨db', hrun, hrep⟩
    rcases rename_state old_dir new_dir old_name new_name 0 s with
      hs | ⟨old, new, db₁, ⟨_, hold'⟩, ⟨_, hnew⟩, hs, ⟨hflags, _⟩ | ⟨_, hfull, htx⟩⟩
    · rw [hrun] at hs
      have hdb : db' = s.db := congrArg Sys.db hs
      subst hdb
      rw [Db.entry, Db.ref, hrep.gone] at hi
      cases hi
    · exact absurd (UInt32.zero_and ..) hflags
    · rw [hrun] at hs
      have hdb : db' = db₁ := congrArg Sys.db hs
      subst hdb
      obtain ⟨hsticky, hperm, hsize, hnumber, hbit, hgone, hoj, hmode⟩ :=
        replaced_dropped h hnd hi hj hnew htx hrep
      refine ⟨replaced_proper h hod hnd hi hj hempty ((isDir_congr (hmode _ hoj)).mpr hod) hrep,
        hsticky, ?_⟩
      by_cases hd : s.db.IsDir j
      · exact .inl hd
      · obtain ⟨l, hl, hend⟩ := hrep.links hd
        split_ifs at hend with hone
        · exact .inr ⟨⟨_, hperm, hbit⟩, ⟨_, hsize, hfull (by simp [hnumber]) hbit⟩, hone ▸ hl⟩
        · exact absurd (Db.has_of_u32 hend) hgone
  · rintro ⟨⟨h1, h2, h3, h4⟩, hsticky, hend⟩
    obtain ⟨new, hnew, hfits, db', htx, hrep⟩ := replaced_of_replaceable
      ⟨i, i_uid, i_gid, i_mode⟩ t h hod hnd hi hj hne himode h1 h2 h3 h4 hsticky
      hallowed.into (hallowed.drop hsticky) hempty hend
    refine ⟨db', ?_, hrep⟩
    have hparent : ¬ (DbfsPermission.contains i_mode .S_IFDIR = true ∧ old_dir ≠ new_dir ∧
        checkout_access i_uid i_gid (i_mode &&& 0o777) uid gid ACCESS_W_OK = false) := by
      rintro ⟨hbit, hdirs, hdeny⟩
      rw [hallowed.parent i_uid i_gid i_mode hiuid higid himode hbit hdirs] at hdeny
      cases hdeny
    rw [rename_run hold hnew, if_neg hfits, if_neg hparent]
    exact Fs.write_ok.mpr ⟨db', htx, rfl⟩

/-- Rename replaces a name cleanly exactly when its directory has the sticky bit and the inode is
a directory, or passes for one and has no other name. -/
theorem renames_cleanly_iff (h : Names s.db) (hod : s.db.IsDir old_dir) (hnd : s.db.IsDir new_dir)
    (hi : s.db.entry old_dir old_name = some i) (hj : s.db.entry new_dir new_name = some j)
    (hne : i ≠ j) (uid gid : UInt32) (ctime : DbfsTimeSpec) :
    RenamesCleanly s uid gid old_dir old_name new_dir new_name i j ctime ↔
      Replaceable s.db uid gid old_dir old_name new_dir new_name i j := by
  constructor
  · rintro ⟨hfull, hfree⟩
    exact ⟨fun hn => (rename_full_iff hi hj hn ctime).mp (hfull hn), fun hn hall =>
      (rename_free_iff h hod hnd hi hj hne hn hall ctime).mp (hfree hn hall)⟩
  · rintro ⟨hfull, hfree⟩
    exact ⟨fun hn => (rename_full_iff hi hj hn ctime).mpr (hfull hn), fun hn hall =>
      (rename_free_iff h hod hnd hi hj hne hn hall ctime).mpr (hfree hn hall)⟩

end law

/-! ## An empty directory that is replaced -/

section sample

attribute [local instance] sli512_features

/-- In a directory without the sticky bit nobody looks at the directory `d`: its name goes to the
file, its bucket stays and the root counts an entry too many. -/
theorem replaced_directory_stays :
    Names dir_and_file.db ∧ dir_and_file.db.entry 1 "f" = some 3 ∧
      dir_and_file.db.entry 1 "d" = some 2 ∧ dir_and_file.db.usize 2 .size = some 2 ∧
      (dbfs_common_rename 0 0 1 "f" 1 "d" 0 .default dir_and_file).1 = .Ok () ∧
      (dbfs_common_rename 0 0 1 "f" 1 "d" 0 .default dir_and_file).2.db.entry 1 "d" = some 3 ∧
      (dbfs_common_rename 0 0 1 "f" 1 "d" 0 .default dir_and_file).2.db.Has 2 ∧
      (dbfs_common_rename 0 0 1 "f" 1 "d" 0 .default dir_and_file).2.db.usize 1 .size = some 3 ∧
      (dbfs_common_rename 0 0 1 "f" 1 "d" 0 .default dir_and_file).2.db.data_count 1 = 2 ∧
      ¬ RenamesCleanly dir_and_file 0 0 1 "f" 1 "d" 3 2 .default := by
  have hstays : (dbfs_common_rename 0 0 1 "f" 1 "d" 0 .default dir_and_file).2.db.Has 2 := by
    decide +kernel
  refine ⟨dir_and_file_names, by decide +kernel, by decide +kernel, by decide +kernel,
    by decide +kernel, by decide +kernel, hstays, by decide +kernel, by decide +kernel, ?_⟩
  intro h
  have hempty : ¬ dir_and_file.db.NonEmpty 2 := by
    intro hfull
    have hok : (dbfs_common_rename 0 0 1 "f" 1 "d" 0 .default dir_and_file).1 = .Ok () := by
      decide +kernel
    rw [h.full hfull] at hok
    cases hok
  have hgrants : dir_and_file.db.Grants 1 0 0 :=
    ⟨0, 0, 16895, by decide +kernel, by decide +kernel, by decide +kernel, by decide⟩
  have hallowed : RenameAllowed dir_and_file.db 0 0 1 3 1 2 :=
    { out := hgrants
      take := ⟨0, 16895, 0, by decide +kernel, by decide +kernel, by decide +kernel, by decide⟩
      has_gid := by decide +kernel
      has_mode := by decide +kernel
      into := hgrants
      drop := fun _ =>
        ⟨0, 16895, 0, by decide +kernel, by decide +kernel, by decide +kernel, by decide⟩
      parent := fun _ _ _ _ _ _ _ hdirs => absurd rfl hdirs }
  obtain ⟨db', hrun, hrep⟩ := h.free hempty hallowed
  rw [hrun] at hstays
  exact hrep.dir (by decide +kernel) hstays

def mkdir_t : NameCall :=
  .create 1 "t" .default (DbfsPermission.S_IFDIR ||| DbfsPermission.S_ISVTX ||| 0o777) none none

def mkdir_e : NameCall :=
  .create 2 "e" .default (DbfsPermission.S_IFDIR ||| 0o755) none none

/-- A directory with the sticky bit and a directory in it, and a file beside the first. -/
def sticky_dir : Sys := ⟨after_calls [mkdir_e, create_f, mkdir_t], 5, ∅⟩

theorem sticky_run : NameRun (fun _ => True) (after_calls [create_f, mkdir_t]) := by
  have hdir : NameRun (fun _ => True) (after_calls [mkdir_t]) := (after_no_calls _).after mkdir_t
    ⟨by decide +kernel, by decide, by decide, by decide +kernel, .Directory, by decide⟩ trivial
  exact hdir.after create_f
    ⟨by decide +kernel, by decide, by decide, by decide +kernel, .RegularFile, by decide⟩ trivial

theorem sticky_dir_names : Names sticky_dir.db := by
  have hrun := sticky_run.after mkdir_e
    ⟨by decide +kernel, by decide, by decide, by decide +kernel, .Directory, by decide⟩ trivial
  exact hrun.names.1

/-- There the file replaces the empty directory. -/
theorem file_replaces_directory :
    RenamesCleanly sticky_dir 0 0 1 "f" 2 "e" 3 4 .default := by
  have hsticky : sticky_dir.db.Sticky 2 := ⟨18431, by decide +kernel, by decide⟩
  have hempty : ¬ sticky_dir.db.NonEmpty 4 := by
    rintro ⟨_, k, hk, hdata, hsome⟩
    obtain ⟨v, hv⟩ := Option.isSome_iff_exists.mp hsome
    obtain ⟨b, hb, hbv⟩ := Store.get_eq_some.mp hv
    have hdots : ∀ kv ∈ ((sticky_dir.db.inodes.find? 4).getD ∅).entries,
        is_data_key kv.1 = true → kv.1 = dot ∨ kv.1 = dotdot := by decide +kernel
    rw [hb] at hdots
    rcases hdots (k, v) (OrdMap.mem_entries.mpr hbv) hdata with h | h
    · exact hk.1 h
    · exact hk.2 h
  refine (renames_cleanly_iff sticky_dir_names (by decide +kernel) (by decide +kernel)
    (by decide +kernel) (by decide +kernel) (by decide) 0 0 .default).mpr
    ⟨fun hfull => absurd hfull hempty, fun _ _ => ⟨by decide, hsticky, .inl (by decide +kernel)⟩⟩

end sample

end dbfs2
