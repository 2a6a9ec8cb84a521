-- The operations of both front ends as data. A hook of the rvfs front end is a call
-- of root in most cases; what the hooks do beside it is in memory only.
import Dbfs2.Calls
import Dbfs2.NameRuns
import Dbfs2.Rvfs

namespace dbfs2

open common Tx inode attr file fs_type

inductive Op [Features] where
  | call (r_uid r_gid : UInt32) (call : Call)
  | copy_file_range (src : UInt64) (offset_src : Nat) (dest : UInt64) (offset_dest len : Nat)
      (ctime : DbfsTimeSpec) (scratch : Scratch)
  | root_inode (uid gid : UInt32) (ctime : DbfsTimeSpec)
  | umount
  | sync_fs
  | dbfs_create (tmp_inode : TmpInode) (dir : Inode) (name : String)
  | dbfs_mkdir (tmp_inode : TmpInode) (dir : Inode) (name : String)
  | dbfs_symlink (tmp_inode : TmpInode) (dir : Inode) (name target : String)
  | dbfs_link (old_inode dir : Inode) (name : String)
  | dbfs_unlink (dir : Inode) (name : String) (i : Inode)
  | dbfs_rmdir (dir : Inode) (name : String)
  | dbfs_rename (old_dir : Inode) (old_name : String) (new_dir : Inode) (new_name : String)
  | dbfs_setattr (i : Inode) (key : String) (val : Bytes)
  | dbfs_removeattr (i : Inode) (key : String)
  | dbfs_truncate (i : Inode)

namespace Op

variable [Features]

/-- The state that an operation leaves. -/
def after : Op → Sys → Sys
  | call r_uid r_gid c, s => (c.run r_uid r_gid s).2
  | copy_file_range src offset_src dest offset_dest len ctime scratch, s =>
    (dbfs_common_copy_file_range src offset_src dest offset_dest len ctime scratch s).2
  | root_inode uid gid ctime, s => (dbfs_common_root_inode uid gid ctime s).2
  | umount, s => (dbfs_common_umount s).2
  | sync_fs, s => (dbfs_sync_fs s).2
  | dbfs_create tmp_inode dir name, s => (inode.dbfs_create tmp_inode dir name s).2
  | dbfs_mkdir tmp_inode dir name, s => (inode.dbfs_mkdir tmp_inode dir name s).2
  | dbfs_symlink tmp_inode dir name target, s =>
    (inode.dbfs_symlink tmp_inode dir name target s).2
  | dbfs_link old_inode dir name, s => (inode.dbfs_link old_inode dir name s).2
  | dbfs_unlink dir name i, s => (inode.dbfs_unlink dir name i s).2
  | dbfs_rmdir dir name, s => (inode.dbfs_rmdir dir name s).2
  | dbfs_rename old_dir old_name new_dir new_name, s =>
    (inode.dbfs_rename old_dir old_name new_dir new_name s).2
  | dbfs_setattr i key val, s => (inode.dbfs_setattr i key val s).2
  | dbfs_removeattr i key, s => (inode.dbfs_removeattr i key s).2
  | dbfs_truncate i, s => (inode.dbfs_truncate i s).2

/-- The call of root that a hook makes. -/
def hooked : Op → Option Call
  | dbfs_create _ dir name =>
    some (.naming (.create dir.number name .default (permission_from_mode .S_FILE) none none))
  | dbfs_mkdir _ dir name =>
    some (.naming (.create dir.number name .default (permission_from_mode .S_DIR) none none))
  | dbfs_symlink _ dir name target =>
    some (.naming (.create dir.number name .default (permission_from_mode .S_SYMLINK)
      (some target) none))
  | dbfs_link old_inode dir name =>
    some (.naming (.link old_inode.number dir.number name .default))
  | dbfs_unlink dir name i => some (.unlink_ino dir.number name i.number .default)
  | dbfs_rmdir dir name => some (.naming (.rmdir dir.number name .default))
  | dbfs_truncate i =>
    some (.truncate i.number .default (UInt64.ofNat i.file_size))
  | _ => none

/-- In the database a hook does what its call does. -/
theorem after_hooked {op : Op} {c : Call} (h : op.hooked = some c) (s : Sys) :
    op.after s = (c.run 0 0 s).2 := by
  cases op <;> cases h
  case dbfs_create tmp_inode dir name =>
    rw [Call.run, NameCall.run, Fs.discard_state]
    exact Fs.or_str_state (rvfs_created_state tmp_inode dir) s
  case dbfs_mkdir tmp_inode dir name =>
    rw [Call.run, NameCall.run, Fs.discard_state]
    exact Fs.or_str_state (rvfs_created_state tmp_inode dir) s
  case dbfs_symlink tmp_inode dir name target =>
    rw [Call.run, NameCall.run, Fs.discard_state]
    exact Fs.or_str_state (rvfs_created_state tmp_inode dir) s
  case dbfs_link old_inode dir name =>
    rw [Call.run, NameCall.run, Fs.discard_state]
    exact Fs.or_str_state (fun _ => Fs.unwrap_bind_state fun _ =>
      Fs.unwrap_bind_state fun _ _ => rfl) s
  case dbfs_unlink dir name i =>
    exact Fs.or_str_state (fun _ => Fs.unwrap_bind_state fun _ _ => rfl) s
  case dbfs_rmdir dir name =>
    exact Fs.or_str_state (fun _ => Fs.unwrap_bind_state fun _ _ => rfl) s
  case dbfs_truncate i =>
    rw [Call.run, Fs.discard_state]
    exact Fs.or_str_state (fun _ _ => rfl) s

end Op

/-! ## What one operation changes -/

section changes

variable [Features] {B : Nat} {P : UInt64 → Prop} {s : Sys}

theorem length_read_piece {size offset index : Nat} {value : Bytes} {st st' : Bytes × Nat}
    (h : read_piece size offset index value st = some st') : st'.1.length = st.1.length := by
  obtain ⟨buf, buf_offset⟩ := st
  simp only [read_piece] at h
  split_ifs at h with hc
  obtain ⟨buf', hbuf, rfl⟩ := Option.map_eq_some_iff.mp h
  unfold copy_from_slice at hbuf
  split_ifs at hbuf with hroom
  cases hbuf
  refine Slices.length_overlay_of_fits ?_
  simp only [List.length_take, List.length_drop]
  omega

theorem length_read_holes {size offset first last : Nat} {st st' : Bytes × Nat}
    (h : read_holes size offset first last st = some st') : st'.1.length = st.1.length := by
  unfold read_holes at h
  generalize List.range' first (last - first) = l at h
  induction l generalizing st with
  | nil =>
    cases h
    rfl
  | cons i l ih =>
    rw [List.foldlM_cons] at h
    obtain ⟨st₁, h1, h2⟩ := Option.bind_eq_some_iff.mp h
    exact (ih h2).trans (length_read_piece h1)

theorem length_read_loop {size offset start_num : Nat} {data : List (Bytes × Bytes)}
    {st st' : Bytes × Nat} (h : read_loop size offset data start_num st = some st') :
    st'.1.length = st.1.length := by
  induction data generalizing start_num st with
  | nil =>
    cases h
    rfl
  | cons kv data ih =>
    simp only [read_loop] at h
    obtain ⟨index, _, h⟩ := Option.bind_eq_some_iff.mp h
    have hrest : ∀ (next : Nat) (st₁ : Bytes × Nat), st₁.1.length = st.1.length →
        ((read_piece size offset index.toNat kv.2 st₁).bind fun st₂ =>
          if st₂.2 = st₂.1.length then some st₂ else read_loop size offset data (next + 1) st₂) =
          some st' → st'.1.length = st.1.length := by
      intro next st₁ hlen₁ h
      obtain ⟨st₂, h2, h⟩ := Option.bind_eq_some_iff.mp h
      have hlen₂ := (length_read_piece h2).trans hlen₁
      split_ifs at h
      · cases h
        exact hlen₂
      · exact (ih h).trans hlen₂
    split_ifs at h
    · obtain ⟨st₁, hholes, h⟩ := Option.bind_eq_some_iff.mp h
      exact hrest _ st₁ (length_read_holes hholes) h
    · exact hrest _ st rfl h

/-- A read gives back a buffer of the same length. -/
theorem length_read_tx {number : UInt64} {buf buf' : Bytes} {offset c : Nat} {db db' : Db}
    (h : read_tx number buf offset db = .Ok ((c, buf'), db')) : buf'.length = buf.length := by
  simp [read_tx] at h
  obtain ⟨_, size, _, ⟨_, ⟨_, rfl⟩, _⟩ | ⟨_, _, data, _, hloop⟩⟩ := h
  · rfl
  · exact length_read_loop hloop

theorem copy_file_range_changes {src dest : UInt64} {offset_src offset_dest len : Nat}
    {ctime : DbfsTimeSpec} {scratch : Scratch} (hB : s.db.Fits B)
    (hfit : ∀ size, s.db.usize src .size = some size →
      offset_dest + min (size - offset_src) len ≤ B) :
    Changes P (Wrote B) s.db
      (dbfs_common_copy_file_range src offset_src dest offset_dest len ctime scratch s).2.db := by
  unfold dbfs_common_copy_file_range dbfs_common_read dbfs_common_write
  simp only [Fs.bind_read]
  rcases hsize : (do get_bucket src; read_usize src .size : Tx Nat) s.db with ⟨size, _⟩ | _ | _
  · simp at hsize
    obtain ⟨⟨_, rfl⟩, hsize⟩ := hsize
    simp only
    rcases hread : read_tx src (List.replicate (min (size - offset_src) len) 0) offset_src s.db with
      ⟨⟨read_size, buf⟩, _⟩ | _ | _
    · have hlen := length_read_tx hread
      rw [List.length_replicate] at hlen
      simp only [Fs.bind_write]
      rcases hwrite : write_tx dest (buf.take read_size) offset_dest scratch s.db with
        ⟨count, db₁⟩ | _ | _
      · have hshort : (buf.take read_size).length ≤ min (size - offset_src) len := by
          rw [List.length_take]
          omega
        have hch : Changes P (Wrote B) s.db db₁ := write_changes hwrite hB fun _ => by
          have := hfit size hsize
          omega
        simp only
        rcases htime : (do
            get_bucket dest
            put dest Field.ctime.key ctime.to_be_bytes
            put dest Field.mtime.key ctime.to_be_bytes : Tx Unit) db₁ with ⟨_, db'⟩ | _ | _
        · simp at htime
          obtain ⟨_, rfl⟩ := htime
          exact (hch.put fun _ => wrote_ctime ctime).put fun _ => wrote_mtime ctime
        · exact hch
        · exact hch
      · exact .refl _
      · exact .refl _
    · exact .refl _
    · exact .refl _
  · exact .refl _
  · exact .refl _

omit [Features] in
theorem attr_key_ne_field (key : String) (f : Field) : attr_key key ≠ f.key := by
  have hall : ∀ g ∈ Field.all, starts_with g.key "attr:" = false := by decide +kernel
  have hkey : starts_with (attr_key key) "attr:" = true := by
    simp [starts_with, attr_key, as_bytes_append]
  intro he
  rw [he, hall f f.mem_all] at hkey
  cases hkey

omit [Features] in
theorem attr_key_not_data (key : String) : is_data_key (attr_key key) = false := by
  rw [attr_key, as_bytes_append]
  rfl

omit [Features] in
theorem setattr_changes (i : Inode) (key : String) (val : Bytes) :
    Changes P (Wrote B) s.db (dbfs_setattr i key val s).2.db := by
  refine .of_write fun _ db' h => ?_
  simp at h
  obtain ⟨_, ⟨_, rfl⟩, _⟩ := h
  exact (Changes.refl _).put fun _ => wrote_other (attr_key_ne_field key) (attr_key_not_data key) _

omit [Features] in
theorem removeattr_changes (i : Inode) (key : String) :
    Changes P (Wrote B) s.db (dbfs_removeattr i key s).2.db := by
  refine .of_write fun _ db' h => ?_
  simp at h
  obtain ⟨_, ⟨_, ⟨_, rfl⟩, _⟩ | ⟨_, _, rfl⟩⟩ := h
  · exact (Changes.refl _).delete fun _ =>
      wrote_other (attr_key_ne_field key) (attr_key_not_data key) _
  · exact .refl _

omit [Features] in
theorem umount_changes : Changes P (Wrote B) s.db (dbfs_common_umount s).2.db := by
  refine .of_write fun _ db' h => ?_
  simp at h
  obtain ⟨_, rfl⟩ := h
  exact (Changes.refl _).sb_put _ _

omit [Features] in
theorem sync_fs_changes : Changes P (Wrote B) s.db (dbfs_sync_fs s).2.db := by
  refine .of_write fun _ db' h => ?_
  simp at h
  subst h
  have hsame : Changes P (Wrote B) s.db ⟨some (s.db.super_blk.getD ∅), s.db.inodes⟩ :=
    ⟨fun _ _ h => h, fun _ _ _ _ => .inl rfl⟩
  exact hsame.sb_put _ _

omit [Features] in
/-- Inside one directory the hook writes one entry; across directories it writes sizes too. -/
theorem dbfs_rename_changes {P : UInt64 → Prop} {old_dir new_dir : Inode}
    (hP : ∀ n, P n → new_dir.number = old_dir.number ∨ n ≠ old_dir.number ∧ n ≠ new_dir.number)
    (old_name new_name : String) : Changes P (Wrote B) s.db
      (dbfs_rename old_dir old_name new_dir new_name s).2.db := by
  rcases dbfs_rename_state old_dir new_dir old_name new_name s with h | ⟨dirs, db', htx, h⟩
  · rw [h]
    exact .refl _
  · rw [h]
    obtain ⟨_, ⟨_, rfl⟩ | ⟨hne, a, b, _, _, _, _, rfl⟩⟩ := dbfs_rename_tx_spec htx
    · exact (Changes.refl _).put fun _ => wrote_entry _ _
    · have hold : ¬ P old_dir.number := fun h => ((hP _ h).resolve_left hne).1 rfl
      have hnew : ¬ P new_dir.number := fun h => ((hP _ h).resolve_left hne).2 rfl
      exact ((((Changes.refl _).delete fun h => absurd h hold).put fun h => absurd h hold).put
        fun h => absurd h hnew).put fun h => absurd h hnew

theorem root_inode_changes {uid gid : UInt32} {ctime : DbfsTimeSpec} :
    Changes (· ≠ 1) (Wrote B) s.db (dbfs_common_root_inode uid gid ctime s).2.db := by
  by_cases h : s.db.Has 1
  · rw [dbfs_common_root_inode, if_pos h]
    refine .of_write fun _ db' hread => ?_
    simp at hread
    rw [hread.2]
    exact .refl _
  · rw [root_inode_fresh _ _ _ h]
    split_ifs
    · rw [Fs.write, new_root_tx_eq _ _ _ h]
      exact ((Changes.refl _).create fun hne => hne rfl).puts fun _ _ hne => absurd rfl hne
    · exact .refl _

end changes

end dbfs2
