-- Who may change a directory: every name that one of the naming calls adds, moves
-- or takes away was in a directory the requester may write, and a sticky directory
-- gives up a name only to root, to its owner or to the owner of the named inode.
import Dbfs2.InodeSpec
import Dbfs2.FsType

namespace dbfs2.inode

open common

/-- The names that create and link are given are free, as the VFS has looked them up. -/
def NameCall.NameFree (db : Db) : NameCall → Prop
  | create dir name _ _ _ _ => db.get dir (generate_data_key name) = none
  | link _ new_ino name _ => db.get new_ino (generate_data_key name) = none
  | _ => True

/-- What allows the requester to change the entry under `k` of `d`. -/
def MayChange (db : Db) (uid gid : UInt32) (d : UInt64) (k : Bytes) : Prop :=
  db.Grants d uid gid ∧ ∀ i p_mode, db.ref d k = some i → db.u16 d .mode = some p_mode →
    DbfsPermission.contains p_mode .S_ISVTX = true → db.MayTake d i uid

/-- A free name has no binding to lose. -/
theorem mayChange_of_free {db : Db} {uid gid : UInt32} {d : UInt64} {k : Bytes}
    (hg : db.Grants d uid gid) (hfree : db.get d k = none) : MayChange db uid gid d k := by
  refine ⟨hg, fun i _ hi _ _ => ?_⟩
  rw [Db.ref, hfree] at hi
  cases hi

theorem mayChange_of_mayTake {db : Db} {uid gid : UInt32} {d i : UInt64} {k : Bytes}
    (hg : db.Grants d uid gid) (hi : db.ref d k = some i) (ht : db.MayTake d i uid) :
    MayChange db uid gid d k := by
  refine ⟨hg, fun j _ hj _ _ => ?_⟩
  rw [hi] at hj
  cases hj
  exact ht

/-- The sticky bit check, read as the three requesters it lets pass. -/
theorem owner_of_mayTake {db : Db} {uid : UInt32} {d i : UInt64} {p_mode : UInt16}
    (h : db.MayTake d i uid) (hmode : db.u16 d .mode = some p_mode)
    (hsticky : DbfsPermission.contains p_mode .S_ISVTX = true) :
    uid = 0 ∨ db.u32 d .uid = some uid ∨ db.u32 i .uid = some uid := by
  obtain ⟨p_uid, m, i_uid, hp, hm, hi, hok⟩ := h
  rw [hmode] at hm
  cases hm
  rw [hp, hi]
  simp only [sticky_ok, hsticky, Bool.true_and] at hok
  by_cases h0 : uid = 0
  · exact .inl h0
  · by_cases h1 : uid = p_uid
    · exact .inr (.inl (by rw [h1]))
    · by_cases h2 : uid = i_uid
      · exact .inr (.inr (by rw [h2]))
      · simp [h0, h1, h2] at hok

section

variable {uid gid : UInt32} {s s' : Sys} {d : UInt64} {k : Bytes}

/-- A key that one call changed in a bucket that was there before and is there after. -/
def Changed (s s' : Sys) (d : UInt64) (k : Bytes) : Prop :=
  s.db.Has d ∧ s'.db.Has d ∧ is_name_key k ∧ s'.db.get d k ≠ s.db.get d k

theorem Changed.ne_field (h : Changed s s' d k) (f : Field) : k ≠ f.key :=
  ne_of_is_data_key h.2.2.1.1 (by simp)

theorem create_changed [Features] {dir : UInt64} {name : String} {t : DbfsTimeSpec}
    {permission : DbfsPermission} {target_path : Option String} {dev : Option UInt32}
    {attr : DbfsAttr}
    (h : dbfs_common_create dir name uid gid t permission target_path dev s = (.Ok attr, s'))
    (hfree : s.db.get dir (generate_data_key name) = none) (hc : Changed s s' d k) :
    MayChange s.db uid gid d k := by
  obtain ⟨_, r, htx⟩ := create_spec h
  obtain ⟨hg, _, _, size, _, _, _, _, hnew⟩ := create_tx_spec htx
  obtain ⟨hn, _, _, hother, _⟩ := new_inode_tx_spec hnew
  have hd : d ≠ s.DBFS_INODE_NUMBER := by
    rintro rfl
    exact hn (by simpa [create_entry] using hc.1)
  by_cases hplace : d = dir ∧ k = generate_data_key name
  · obtain ⟨rfl, rfl⟩ := hplace
    exact mayChange_of_free hg hfree
  · refine absurd ?_ hc.2.2.2
    rw [hother d k hd]
    simp [create_entry, hc.ne_field]
    exact fun h1 h2 => absurd ⟨h1, h2⟩ hplace

theorem link_changed {ino new_ino : UInt64} {name : String} {t : DbfsTimeSpec} {attr : DbfsAttr}
    (h : dbfs_common_link uid gid ino new_ino name t s = (.Ok attr, s'))
    (hfree : s.db.get new_ino (generate_data_key name) = none) (hc : Changed s s' d k) :
    MayChange s.db uid gid d k := by
  obtain ⟨hg, db', htx, rfl⟩ := link_spec h
  obtain ⟨size, links, _, _, _, _, _, rfl⟩ := link_tx_spec htx
  by_cases hplace : d = new_ino ∧ k = generate_data_key name
  · obtain ⟨rfl, rfl⟩ := hplace
    exact mayChange_of_free hg hfree
  · refine absurd ?_ hc.2.2.2
    simp [hc.ne_field]
    exact fun h1 h2 => absurd ⟨h1, h2⟩ hplace

theorem unlink_changed {dir : UInt64} {name : String} {t : DbfsTimeSpec} {u : Unit}
    (h : dbfs_common_unlink uid gid dir name none t s = (.Ok u, s')) (hc : Changed s s' d k) :
    MayChange s.db uid gid d k := by
  obtain ⟨db', htx, rfl⟩ := Fs.write_ok.mp h
  obtain ⟨hg, i, size, links, hi, ht, _, _, _, hend⟩ := unlink_tx_spec htx
  by_cases hplace : d = dir ∧ k = generate_data_key name
  · obtain ⟨rfl, rfl⟩ := hplace
    exact mayChange_of_mayTake hg hi ht
  · refine absurd ?_ hc.2.2.2
    rcases hend with ⟨_, rfl⟩ | ⟨_, _, rfl⟩
    · have hd : d ≠ i := by
        rintro rfl
        simpa using hc.2.1
      simp [hc.ne_field, hplace, hd]
    · simp [hc.ne_field, hplace]

theorem rmdir_changed {dir : UInt64} {name : String} {t : DbfsTimeSpec} {u : Unit}
    (h : dbfs_common_rmdir uid gid dir name t s = (.Ok u, s')) (hc : Changed s s' d k) :
    MayChange s.db uid gid d k := by
  obtain ⟨db', htx, rfl⟩ := Fs.write_ok.mp h
  obtain ⟨hg, i, size, i_size, hi, ht, _, _, _, _, rfl⟩ := rmdir_tx_spec htx
  by_cases hplace : d = dir ∧ k = generate_data_key name
  · obtain ⟨rfl, rfl⟩ := hplace
    exact mayChange_of_mayTake hg hi ht
  · refine absurd ?_ hc.2.2.2
    have hd : d ≠ i := by
      rintro rfl
      simpa using hc.2.1
    simp [hc.ne_field, hplace, hd]

theorem rename_changed {old_dir new_dir : UInt64} {old_name new_name : String} {flags : UInt32}
    {t : DbfsTimeSpec} {u : Unit}
    (h : dbfs_common_rename uid gid old_dir old_name new_dir new_name flags t s = (.Ok u, s'))
    (hc : Changed s s' d k) : MayChange s.db uid gid d k := by
  obtain ⟨old, new, ⟨_, hold⟩, ⟨_, hnew⟩, htx⟩ := rename_spec h
  obtain ⟨hog, hoi, _, hot, _⟩ := rename_old_tx_spec hold
  obtain ⟨hng, p_mode, hmode, hnn⟩ := rename_new_tx_spec hnew
  by_cases hplace : d = old_dir ∧ k = generate_data_key old_name
  · obtain ⟨rfl, rfl⟩ := hplace
    exact mayChange_of_mayTake hog hoi hot
  · by_cases hplace' : d = new_dir ∧ k = generate_data_key new_name
    · obtain ⟨rfl, rfl⟩ := hplace'
      rcases hnn with ⟨_, hfree⟩ | ⟨i, _, hi, ht⟩
      · -- without the sticky bit the target was not looked at, and need not be
        refine ⟨hng, fun i m hi hm hsticky => ?_⟩
        rw [hmode] at hm
        cases hm
        rw [Db.ref, hfree hsticky] at hi
        cases hi
      · exact mayChange_of_mayTake hng hi ht
    · obtain ⟨hd, hd', ⟨hk, hdot, hdd⟩, hne⟩ := hc
      refine absurd ?_ hne
      rcases htx with ⟨number, _, htx⟩ | htx
      · exact (rename_exchange_tx_names htx hd' hk hdot hdd hplace hplace').2
      · exact (rename_move_tx_names htx hd' hk hdd hplace hplace').2

theorem run_changed [Features] (call : NameCall) (h : call.run uid gid s = (.Ok (), s'))
    (hfree : call.NameFree s.db) (hc : Changed s s' d k) : MayChange s.db uid gid d k := by
  cases call with
  | create dir name t permission target_path dev =>
    simp only [NameCall.run, Fs.bind_ok, Fs.pure_ok] at h
    obtain ⟨attr, s₁, h, _, rfl⟩ := h
    exact create_changed h hfree hc
  | link ino new_ino name t =>
    simp only [NameCall.run, Fs.bind_ok, Fs.pure_ok] at h
    obtain ⟨attr, s₁, h, _, rfl⟩ := h
    exact link_changed h hfree hc
  | unlink dir name t => exact unlink_changed h hc
  | rmdir dir name t => exact rmdir_changed h hc
  | rename old_dir old_name new_dir new_name flags t => exact rename_changed h hc

end

/-- A call that changed the names in a directory had the requester's write access to it, and a
name that a sticky directory lost was the requester's to take. -/
theorem names_change_only_by_right [Features] (call : NameCall) (uid gid : UInt32) (s s' : Sys)
    (h : call.run uid gid s = (.Ok (), s')) (hfree : call.NameFree s.db) (d : UInt64)
    (hd : s.db.Has d) (hd' : s'.db.Has d) :
    ((∃ k, is_name_key k ∧ s'.db.get d k ≠ s.db.get d k) → s.db.Grants d uid gid) ∧
      ∀ k i p_mode, is_name_key k → s.db.u16 d .mode = some p_mode →
        DbfsPermission.contains p_mode .S_ISVTX = true → s.db.ref d k = some i →
        s'.db.ref d k ≠ some i →
        uid = 0 ∨ s.db.u32 d .uid = some uid ∨ s.db.u32 i .uid = some uid := by
  constructor
  · rintro ⟨k, hk, hne⟩
    exact (run_changed call h hfree ⟨hd, hd', hk, hne⟩).1
  · intro k i p_mode hk hmode hsticky hi hne
    have hget : s'.db.get d k ≠ s.db.get d k := by
      intro e
      rw [Db.ref, e] at hne
      exact hne hi
    have hmay := run_changed call h hfree ⟨hd, hd', hk, hget⟩
    exact owner_of_mayTake (hmay.2 i p_mode hi hmode hsticky) hmode hsticky

section sample

attribute [local instance] sli512_features

/-- A sticky directory of root, inode 2, with a file of user 5, inode 3. -/
def sticky_sample : Sys :=
  let mkdir := NameCall.create 1 "tmp" .default (DbfsPermission.S_IFDIR ||| 0o1777) none none
  let create := NameCall.create 2 "f" .default (DbfsPermission.S_IFREG ||| 0o644) none none
  (create.run 5 5 (mkdir.run 0 0 (fs_type.new_fs 0 0 .default)).2).2

theorem user_5_takes_the_own_file : sticky_sample.db.Grants 2 5 5 ∧
    ((5 : UInt32) = 0 ∨ sticky_sample.db.u32 2 .uid = some 5 ∨
      sticky_sample.db.u32 3 .uid = some 5) := by
  have h := names_change_only_by_right (.unlink 2 "f" .default) 5 5 sticky_sample _
    (Prod.ext (by decide +kernel) rfl) trivial 2 (by decide +kernel) (by decide +kernel)
  exact ⟨h.1 ⟨generate_data_key "f", by decide +kernel, by decide +kernel⟩,
    h.2 (generate_data_key "f") 3 0o43777 (by decide +kernel) (by decide +kernel)
      (by decide +kernel) (by decide +kernel) (by decide +kernel)⟩

/-- A sticky directory of root, inode 2, beside a directory of user 7, inode 3. -/
def sticky_sibling : Sys :=
  let mkdir := NameCall.create 1 "tmp" .default (DbfsPermission.S_IFDIR ||| 0o1777) none none
  let mkdir_a := NameCall.create 1 "a" .default (DbfsPermission.S_IFDIR ||| 0o755) none none
  (mkdir_a.run 7 7 (mkdir.run 0 0 (fs_type.new_fs 0 0 .default)).2).2

/-- User 7 may write to the root and to inode 3, and moves the sticky directory from the one to the
other: its `..` is replaced although neither it nor the root is theirs. -/
theorem sticky_directory_loses_its_parent :
    let move := NameCall.rename 1 "tmp" 3 "tmp" 0 .default
    let moved := move.run 7 7 sticky_sibling
    moved.1 = .Ok () ∧ move.NameFree sticky_sibling.db ∧
      sticky_sibling.db.Has 2 ∧ moved.2.db.Has 2 ∧
      (∃ p_mode, sticky_sibling.db.u16 2 .mode = some p_mode ∧
        DbfsPermission.contains p_mode .S_ISVTX = true) ∧
      sticky_sibling.db.ref 2 (generate_data_key "..") = some 1 ∧
      moved.2.db.ref 2 (generate_data_key "..") = some 3 ∧
      ¬ ((7 : UInt32) = 0 ∨ sticky_sibling.db.u32 2 .uid = some 7 ∨
        sticky_sibling.db.u32 1 .uid = some 7) := by
  refine ⟨by decide +kernel, trivial, by decide +kernel, by decide +kernel,
    ⟨0o43777, by decide +kernel, by decide +kernel⟩, by decide +kernel, by decide +kernel,
    by decide +kernel⟩

end sample

end dbfs2.inode
