-- Where stored times come from. What a database holds under its keys has a rule for every put
-- and delete. Read over the operations of both front ends, every time that an inode shows is one
-- that some operation was given.
import Dbfs2.CopyRange
import Dbfs2.Ops

namespace dbfs2

open common Tx inode attr file fs_type

/-! ## Stored values -/

/-- Every value in an inode bucket is good for its key. -/
def Stored (V : Bytes → Bytes → Prop) (db : Db) : Prop :=
  ∀ n k v, db.get n k = some v → V k v

namespace Stored

variable {V : Bytes → Bytes → Prop} {db db' : Db} {n : UInt64} {k v : Bytes}

theorem put (h : Stored V db) (hv : V k v) : Stored V (db.put n k v) := by
  intro m k' v' hget
  rw [Db.get_put] at hget
  split_ifs at hget with hc
  · cases hget
    rw [hc.2.1]
    exact hv
  · exact h m k' v' hget

theorem put_if (h : Stored V db) (c : Bool) (hv : V k v) : Stored V (db.put_if c n k v) := by
  cases c with
  | false => exact h
  | true => exact h.put hv

theorem puts (h : Stored V db) {kvs : List (Bytes × Bytes)} (hv : ∀ kv ∈ kvs, V kv.1 kv.2) :
    Stored V (db.puts n kvs) := by
  induction kvs generalizing db with
  | nil => exact h
  | cons kv kvs ih =>
    rw [Db.puts_cons]
    exact ih (h.put (hv kv List.mem_cons_self)) fun x hx => hv x (List.mem_cons_of_mem _ hx)

theorem delete (h : Stored V db) (n : UInt64) (k : Bytes) : Stored V (db.delete n k) := by
  intro m k' v' hget
  rw [Db.get_delete] at hget
  split_ifs at hget
  exact h m k' v' hget

theorem drop (h : Stored V db) (n : UInt64) : Stored V (db.drop n) := by
  intro m k' v' hget
  rw [Db.get_drop] at hget
  split_ifs at hget
  exact h m k' v' hget

theorem create (h : Stored V db) (n : UInt64) : Stored V (db.create n) := by
  intro m k' v' hget
  rw [Db.get_create] at hget
  split_ifs at hget
  exact h m k' v' hget

theorem sb_put (h : Stored V db) (f : Field) (v : Bytes) : Stored V (db.sb_put f v) :=
  fun n k v' hget => h n k v' hget

theorem slices (h : Stored V db) (honly : SlicesOnly n db db')
    (hv : ∀ i v, V (slice_key i) v) : Stored V db' := by
  intro m k' v' hget
  by_cases hk : ∃ i, k' = slice_key i
  · obtain ⟨i, rfl⟩ := hk
    exact hv i v'
  · rw [honly.get m k' fun _ i e => hk ⟨i, e⟩] at hget
    exact h m k' v' hget

/-- A call that is one write transaction. -/
theorem of_write {α : Type} {s : Sys} {x : Tx α} (h : Stored V s.db)
    (hx : ∀ a db', x s.db = .Ok (a, db') → Stored V db') : Stored V (Fs.write x s).2.db := by
  rcases Fs.write_state x s with hs | ⟨a, db', htx, hs⟩
  · rw [hs]
    exact h
  · rw [hs]
    exact hx a db' htx

theorem of_bind {α β : Type} {s : Sys} {x : Fs α} {f : α → Fs β} (hx : Stored V (x s).2.db)
    (hf : ∀ a s', Stored V s'.db → Stored V (f a s').2.db) : Stored V ((x >>= f) s).2.db := by
  rw [Fs.bind_eq]
  rcases hs : x s with ⟨a | e | _, s'⟩
  · rw [hs] at hx
    exact hf a s' hx
  · rw [hs] at hx
    exact hx
  · rw [hs] at hx
    exact hx

end Stored

/-! ## Times -/

def common.Field.IsTime (f : Field) : Prop := f = .atime ∨ f = .mtime ∨ f = .ctime

/-- What stands under the key of a time is one of the times `T`. -/
def Dated (T : DbfsTimeSpec → Prop) (k v : Bytes) : Prop :=
  ∀ f : Field, f.IsTime → k = f.key → ∃ t, T t ∧ v = t.to_be_bytes

section dated

variable {T : DbfsTimeSpec → Prop} {t : DbfsTimeSpec} {v : Bytes}

theorem dated_time (h : T t) (k : Bytes) : Dated T k t.to_be_bytes := fun _ _ _ => ⟨t, h, rfl⟩

theorem dated_field {f : Field} (h : f ≠ .atime ∧ f ≠ .mtime ∧ f ≠ .ctime) : Dated T f.key v := by
  intro g hg he
  rw [← Field.key_injective he] at hg
  rcases hg with e | e | e
  · exact absurd e h.1
  · exact absurd e h.2.1
  · exact absurd e h.2.2

theorem dated_other {k : Bytes} (h : ∀ f : Field, k ≠ f.key) : Dated T k v :=
  fun f _ he => absurd he (h f)

theorem dated_entry (name : String) : Dated T (generate_data_key name) v :=
  dated_other (generate_data_key_ne_field name)

theorem dated_slice (i : Nat) (v : Bytes) : Dated T (slice_key i) v :=
  dated_other fun f => (field_ne_slice_key f i).symm

end dated

/-- The times that a call is given. A call that never writes its time has none. -/
def Call.times [Features] : Call → List DbfsTimeSpec
  | naming (.create _ _ c_time _ _ _) => [c_time]
  | naming (.link _ _ _ ctime) => [ctime]
  | naming (.unlink _ _ c_time) => [c_time]
  | naming (.rmdir _ _ c_time) => [c_time]
  | naming (.rename _ _ _ _ _ ctime) => [ctime]
  | unlink_ino _ _ _ c_time => [c_time]
  | write .. => []
  | truncate _ ctime _ => [ctime]
  | fallocate _ _ _ _ ctime => [ctime]
  | setxattr _ _ _ ctime => [ctime]
  | removexattr .. => []
  | chmod _ _ ctime => [ctime]
  | chown _ _ _ c_time => [c_time]
  | utimens _ atime mtime c_time => c_time :: (atime.toList ++ mtime.toList)

/-- The times of an operation of either front end. -/
def Op.times [Features] : Op → List DbfsTimeSpec
  | call _ _ c => c.times
  | copy_file_range _ _ _ _ _ ctime _ => [ctime]
  | root_inode _ _ ctime => [ctime]
  | op => (op.hooked.map Call.times).getD []

/-! ## The transactions -/

section tx

variable {T : DbfsTimeSpec → Prop} {db db' : Db} {uid gid : UInt32} {name : String}
  {t : DbfsTimeSpec} {u : Unit}

theorem link_dated {ino new_ino : UInt64} (hdb : Stored (Dated T) db) (ht : T t)
    (h : link_tx ino new_ino name t db = .Ok (u, db')) : Stored (Dated T) db' := by
  obtain ⟨_, _, _, _, _, _, _, rfl⟩ := link_tx_spec h
  exact (((((hdb.put (dated_entry _)).put (dated_field (by decide))).put (dated_time ht _)).put
    (dated_time ht _)).put (dated_field (by decide))).put (dated_time ht _)

theorem new_fields_dated [Features] {links : UInt32} {size : Nat} (ht : T t) :
    ∀ kv ∈ new_fields uid gid t links size, Dated T kv.1 kv.2 := by
  simp only [new_fields, List.forall_mem_cons]
  exact ⟨dated_field (by decide), dated_field (by decide), dated_field (by decide),
    dated_field (by decide), dated_time ht _, dated_time ht _, dated_time ht _,
    dated_field (by decide), by simp⟩

theorem create_dated [Features] {n dir : UInt64} {permission : DbfsPermission}
    {target_path : Option String} {dev : Option UInt32}
    {r : UInt32 × DbfsPermission × UInt32 × Nat × Option UInt32} (hdb : Stored (Dated T) db)
    (ht : T t) (h : create_tx n dir name uid gid t permission target_path dev db = .Ok (r, db')) :
    Stored (Dated T) db' := by
  obtain ⟨_, _, _, size, counts, _, _, _, hnew⟩ := create_tx_spec h
  obtain ⟨_, _, target, htarget, rfl⟩ := new_inode_tx_eq hnew
  have hentry : Stored (Dated T) (create_entry db dir name n size t) :=
    (((hdb.put (dated_field (by decide))).put (dated_entry _)).put (dated_time ht _)).put
      (dated_time ht _)
  refine (((((hentry.create n).put (dated_field (by decide))).puts fun kv hkv => ?_).puts
    fun kv hkv => ?_).puts fun kv hkv => ?_).puts fun kv hkv => ?_
  · unfold new_dots at hkv
    split_ifs at hkv
    · rcases List.mem_pair.mp hkv with rfl | rfl
      · exact dated_entry _
      · exact dated_entry _
    · cases hkv
  · exact new_fields_dated ht kv hkv
  · rw [htarget kv hkv]
    exact dated_field (f := .data) (by decide)
  · obtain ⟨_, _, rfl⟩ := List.mem_map.mp hkv
    exact dated_field (f := .dev) (by decide)

theorem unlink_dated {dir : UInt64} {ino : Option UInt64} (hdb : Stored (Dated T) db) (ht : T t)
    (h : unlink_tx uid gid dir name ino t db = .Ok (u, db')) : Stored (Dated T) db' := by
  obtain ⟨_, i, size, links, _, _, _, _, _, hend⟩ := unlink_tx_spec h
  have hdir : Stored (Dated T) ((((db.delete dir (generate_data_key name)).put dir
      Field.size.key (be_usize (size - 1))).put dir Field.ctime.key t.to_be_bytes).put dir
      Field.mtime.key t.to_be_bytes) :=
    (((hdb.delete _ _).put (dated_field (by decide))).put (dated_time ht _)).put (dated_time ht _)
  rcases hend with ⟨_, rfl⟩ | ⟨_, _, rfl⟩
  · exact hdir.drop i
  · exact (hdir.put (dated_field (by decide))).put (dated_time ht _)

theorem rmdir_dated {dir : UInt64} (hdb : Stored (Dated T) db) (ht : T t)
    (h : rmdir_tx uid gid dir name t db = .Ok (u, db')) : Stored (Dated T) db' := by
  obtain ⟨_, i, _, _, _, _, _, _, _, _, rfl⟩ := rmdir_tx_spec h
  exact ((((hdb.put (dated_time ht _)).put (dated_time ht _)).delete _ _).put
    (dated_field (by decide))).drop i

section rename

variable {old_dir new_dir : UInt64} {old_name new_name : String} {old : RenameOld}
  {new : RenameNew}

theorem rename_exchange_dated {number : UInt64} {perm : DbfsPermission}
    (hdb : Stored (Dated T) db) (ht : T t)
    (h : rename_exchange_tx old_dir old_name new_dir new_name old number perm t db =
      .Ok (u, db')) : Stored (Dated T) db' := by
  rw [rename_exchange_tx_eq h]
  exact (((((((((hdb.put (dated_entry _)).put (dated_entry _)).put (dated_time ht _)).put
    (dated_time ht _)).put (dated_time ht _)).put (dated_time ht _)).put (dated_time ht _)).put
    (dated_time ht _)).put_if _ (dated_entry _)).put_if _ (dated_entry _)

theorem rename_moved_dated (hdb : Stored (Dated T) db) (ht : T t) (old_size new_size : Nat) :
    Stored (Dated T)
      (rename_moved db old_dir old_name new_dir new_name old old_size new_size t) :=
  (((((((((hdb.delete _ _).put (dated_field (by decide))).put (dated_entry _)).put
    (dated_field (by decide))).put (dated_time ht _)).put (dated_time ht _)).put
    (dated_time ht _)).put (dated_time ht _)).put (dated_time ht _)).put_if _ (dated_entry _)

theorem rename_move_dated (hdb : Stored (Dated T) db) (ht : T t)
    (h : rename_move_tx old_dir old_name new_dir new_name old new t db = .Ok (u, db')) :
    Stored (Dated T) db' := by
  obtain ⟨db₁, new_size, old_size, hnone, hsome, _, _, _, _, _, _, rfl⟩ := rename_move_tx_eq h
  refine rename_moved_dated ?_ ht old_size new_size
  rcases hn : new.number with _ | number
  · rw [(hnone hn).1]
    exact hdb
  · obtain ⟨_, _, hrep⟩ := hsome number hn
    obtain ⟨_, _, ⟨_, rfl⟩ | ⟨_, _, _, rfl | rfl⟩⟩ := rename_replace_tx_eq hrep
    · exact (hdb.delete _ _).drop _
    · exact (hdb.delete _ _).drop _
    · exact ((hdb.delete _ _).put (dated_field (by decide))).put (dated_time ht _)

end rename

section contents

variable [Features] {n : UInt64}

theorem write_dated {buf : Bytes} {offset c : Nat} {scratch : Scratch}
    (hdb : Stored (Dated T) db) (h : write_tx n buf offset scratch db = .Ok (c, db')) :
    Stored (Dated T) db' := by
  simp [write_tx] at h
  obtain ⟨_, _, _, _, db₁, hloop, _, h⟩ := h
  have h₁ := hdb.slices (write_loop_only hloop).1 dated_slice
  rcases h with ⟨_, ⟨_, rfl⟩, _⟩ | ⟨_, _, rfl⟩
  · exact h₁.put (dated_field (by decide))
  · exact h₁

theorem truncate_dated {f_size : UInt64} {attr a : DbfsAttr} (hdb : Stored (Dated T) db)
    (ht : T t) (h : truncate_tx n t f_size attr db = .Ok (a, db')) : Stored (Dated T) db' := by
  simp [truncate_tx] at h
  obtain ⟨_, _, db₁, hblocks, _, ⟨_, rfl⟩, _⟩ := h
  obtain ⟨db₂, _, d, honly, _, _, rfl, _⟩ := truncate_blocks_ok hblocks
  have h₂ := (hdb.slices honly dated_slice).sb_put .disk_size (be_usize d)
  exact (((h₂.put (dated_field (by decide))).put (dated_time ht _)).put (dated_time ht _)).put
    (dated_field (by decide))

theorem fallocate_dated {r_uid r_gid : UInt32} {offset size : Nat} {mode : UInt32}
    (hdb : Stored (Dated T) db) (ht : T t)
    (h : fallocate_tx r_uid r_gid n offset size mode t db = .Ok (u, db')) :
    Stored (Dated T) db' := by
  have hsize : ∀ {db₁ : Db} {f_size i_size : Nat}, Stored (Dated T) db₁ →
      fallocate_size n f_size i_size mode t db₁ = .Ok (u, db') → Stored (Dated T) db' := by
    intro db₁ f_size i_size h₁ h
    simp [fallocate_size] at h
    rcases h with ⟨_, _, ⟨_, _, rfl⟩ | ⟨_, rfl⟩⟩ | ⟨_, rfl⟩
    · exact ((h₁.put (dated_time ht _)).put (dated_time ht _)).put (dated_field (by decide))
    · exact (h₁.put (dated_time ht _)).put (dated_time ht _)
    · exact h₁
  simp [fallocate_tx, charge_ok] at h
  obtain ⟨_, _, _, _, _, _, _, _, _, _, _, h⟩ := h
  rcases h with ⟨_, d, _, h⟩ | ⟨_, h⟩
  · exact hsize (hdb.sb_put _ _) h
  · exact hsize hdb h

end contents

theorem setxattr_dated {n : UInt64} {key : String} {value : Bytes} (hdb : Stored (Dated T) db)
    (ht : T t) (h : setxattr_tx uid gid n key value t db = .Ok (u, db')) :
    Stored (Dated T) db' := by
  obtain ⟨hmay, rfl⟩ := setxattr_tx_iff.mp h
  exact (hdb.put (dated_other (xattr_ne_field (mayXattr_isXattr hmay)))).put (dated_time ht _)

theorem utimens_dated {n : UInt64} {atime mtime : Option DbfsTimeSpec}
    (hdb : Stored (Dated T) db) (ht : ∀ x ∈ t :: (atime.toList ++ mtime.toList), T x)
    (h : utimens_tx n atime mtime t db = .Ok (u, db')) : Stored (Dated T) db' := by
  rw [List.forall_mem_cons, List.forall_mem_append] at ht
  simp only [utimens_tx, bind_ok, get_bucket_ok] at h
  obtain ⟨_, _, ⟨hn, rfl⟩, _, db₁, hatime, _, db₂, hmtime, hput⟩ := h
  rw [puts_ok hn] at hatime
  subst hatime
  rw [puts_ok (by simpa using hn)] at hmtime
  subst hmtime
  rw [put_ok] at hput
  obtain ⟨_, rfl⟩ := hput
  refine ((hdb.puts fun kv hkv => ?_).puts fun kv hkv => ?_).put (dated_time ht.1 _)
  · obtain ⟨x, hx, rfl⟩ := List.mem_map.mp hkv
    exact dated_time (ht.2.1 x hx) _
  · obtain ⟨x, hx, rfl⟩ := List.mem_map.mp hkv
    exact dated_time (ht.2.2 x hx) _

end tx

/-! ## The operations -/

section ops

variable [Features] {T : DbfsTimeSpec → Prop} {s : Sys}

/-- A naming call, whoever makes it and however it ends. -/
theorem naming_dated (h : Stored (Dated T) s.db) (call : NameCall)
    (ht : ∀ t ∈ (Call.naming call).times, T t) (r_uid r_gid : UInt32) :
    Stored (Dated T) (call.run r_uid r_gid s).2.db := by
  cases call with
  | create dir name t permission target_path dev =>
    rw [NameCall.run, Fs.discard_state]
    rcases create_db dir permission target_path dev s with hs | ⟨r, htx⟩
    · rw [hs]
      exact h
    · exact create_dated h (ht t List.mem_cons_self) htx
  | link ino new_ino name t =>
    rw [NameCall.run, Fs.discard_state]
    rcases link_db ino new_ino s with hs | htx
    · rw [hs]
      exact h
    · exact link_dated h (ht t List.mem_cons_self) htx
  | unlink dir name t => exact h.of_write fun _ _ => unlink_dated h (ht t List.mem_cons_self)
  | rmdir p_ino name t => exact h.of_write fun _ _ => rmdir_dated h (ht t List.mem_cons_self)
  | rename old_dir old_name new_dir new_name flags t =>
    rw [NameCall.run]
    rcases rename_state old_dir new_dir old_name new_name flags s with
      hs | ⟨old, new, db', _, _, hs, ⟨_, number, _, htx⟩ | ⟨_, _, htx⟩⟩
    · rw [hs]
      exact h
    · rw [hs]
      exact rename_exchange_dated h (ht t List.mem_cons_self) htx
    · rw [hs]
      exact rename_move_dated h (ht t List.mem_cons_self) htx

theorem call_dated (h : Stored (Dated T) s.db) (c : Call) (ht : ∀ t ∈ c.times, T t)
    (r_uid r_gid : UInt32) : Stored (Dated T) (c.run r_uid r_gid s).2.db := by
  cases c with
  | naming call => exact naming_dated h call ht r_uid r_gid
  | unlink_ino dir name ino t =>
    exact h.of_write fun _ _ => unlink_dated h (ht t List.mem_cons_self)
  | write ino buf offset scratch =>
    rw [Call.run, Fs.discard_state]
    exact h.of_write fun _ _ => write_dated h
  | truncate ino t f_size =>
    rw [Call.run, Fs.discard_state]
    rcases truncate_state t f_size with hs | ⟨attr, a, _, db', _, htx, hs⟩
    · rw [hs]
      exact h
    · rw [hs]
      exact truncate_dated h (ht t List.mem_cons_self) htx
  | fallocate ino offset size mode t =>
    exact h.of_write fun _ _ => fallocate_dated h (ht t List.mem_cons_self)
  | setxattr ino key value t =>
    exact h.of_write fun _ _ => setxattr_dated h (ht t List.mem_cons_self)
  | removexattr ino key t =>
    rw [Call.run, dbfs_common_removexattr, Fs.dropped, Fs.read_state]
    exact h
  | chmod ino mode t =>
    rw [Call.run, Fs.discard_state]
    rcases chmod_state mode t with hs | ⟨_, _, _, _, hs⟩
    · rw [hs]
      exact h
    · rw [hs]
      exact (h.put (dated_field (by decide))).put (dated_time (ht t List.mem_cons_self) _)
  | chown ino uid gid t =>
    rw [Call.run, Fs.discard_state]
    rcases chown_state uid gid t with hs | ⟨_, _, _, _, hs⟩
    · rw [hs]
      exact h
    · rw [hs]
      exact (((h.put (dated_field (by decide))).put (dated_field (by decide))).put
        (dated_field (by decide))).put (dated_time (ht t List.mem_cons_self) _)
  | utimens ino atime mtime t =>
    rw [Call.run, Fs.discard_state]
    rcases utimens_state atime mtime t with hs | ⟨db', htx, hs⟩
    · rw [hs]
      exact h
    · rw [hs]
      exact utimens_dated h ht htx

theorem copy_file_range_dated (h : Stored (Dated T) s.db) {ctime : DbfsTimeSpec} (ht : T ctime)
    (src : UInt64) (offset_src : Nat) (dest : UInt64) (offset_dest len : Nat)
    (scratch : Scratch) : Stored (Dated T)
      (dbfs_common_copy_file_range src offset_src dest offset_dest len ctime scratch s).2.db := by
  unfold dbfs_common_copy_file_range
  refine Stored.of_bind (by rwa [Fs.read_state]) fun size s₁ h₁ => ?_
  refine Stored.of_bind (by rwa [dbfs_common_read, Fs.read_state]) fun r s₂ h₂ => ?_
  refine Stored.of_bind (h₂.of_write fun _ _ => write_dated h₂) fun _ s₃ h₃ => ?_
  refine Stored.of_bind (h₃.of_write fun _ db' htx => ?_) fun _ _ h₄ => h₄
  obtain ⟨_, rfl⟩ := stamp_ok.mp htx
  exact (h₃.put (dated_time ht _)).put (dated_time ht _)

omit [Features] in
theorem setattr_dated (h : Stored (Dated T) s.db) (i : Inode) (key : String) (val : Bytes) :
    Stored (Dated T) (dbfs_setattr i key val s).2.db := by
  refine h.of_write fun _ db' htx => ?_
  simp at htx
  obtain ⟨_, ⟨_, rfl⟩, _⟩ := htx
  exact h.put (dated_other (attr_key_ne_field key))

omit [Features] in
theorem removeattr_dated (h : Stored (Dated T) s.db) (i : Inode) (key : String) :
    Stored (Dated T) (dbfs_removeattr i key s).2.db := by
  refine h.of_write fun _ db' htx => ?_
  simp at htx
  obtain ⟨_, ⟨_, ⟨_, rfl⟩, _⟩ | ⟨_, _, rfl⟩⟩ := htx
  · exact h.delete _ _
  · exact h

omit [Features] in
theorem dbfs_rename_dated (h : Stored (Dated T) s.db) (old_dir new_dir : Inode)
    (old_name new_name : String) :
    Stored (Dated T) (dbfs_rename old_dir old_name new_dir new_name s).2.db := by
  rcases dbfs_rename_state old_dir new_dir old_name new_name s with hs | ⟨dirs, db', htx, hs⟩
  · rw [hs]
    exact h
  · rw [hs]
    obtain ⟨_, ⟨_, rfl⟩ | ⟨_, _, _, _, _, _, _, rfl⟩⟩ := dbfs_rename_tx_spec htx
    · exact h.put (dated_entry _)
    · exact (((h.delete _ _).put (dated_field (by decide))).put (dated_entry _)).put
        (dated_field (by decide))

theorem root_inode_dated (h : Stored (Dated T) s.db) {ctime : DbfsTimeSpec} (ht : T ctime)
    (uid gid : UInt32) : Stored (Dated T) (dbfs_common_root_inode uid gid ctime s).2.db := by
  by_cases hroot : s.db.Has 1
  · rw [dbfs_common_root_inode, if_pos hroot]
    refine h.of_write fun _ db' hread => ?_
    simp at hread
    rw [hread.2]
    exact h
  · rw [root_inode_fresh _ _ _ hroot]
    split_ifs
    · rw [Fs.write, new_root_tx_eq _ _ _ hroot]
      refine (h.create 1).puts ?_
      simp only [root_fields, List.forall_mem_cons]
      exact ⟨dated_field (by decide), dated_field (by decide), dated_field (by decide),
        dated_field (by decide), dated_time ht _, dated_time ht _, dated_time ht _,
        dated_field (by decide), dated_field (by decide), dated_entry _, by simp⟩
    · exact h

/-- What one operation does, from either front end. -/
theorem op_dated (h : Stored (Dated T) s.db) (op : Op) (ht : ∀ t ∈ op.times, T t) :
    Stored (Dated T) (op.after s).db := by
  have hhooked : ∀ c, op.hooked = some c → (∀ t ∈ c.times, T t) →
      Stored (Dated T) (op.after s).db := fun c hc hT => by
    rw [Op.after_hooked hc]
    exact call_dated h c hT 0 0
  cases op with
  | call r_uid r_gid c => exact call_dated h c ht r_uid r_gid
  | copy_file_range => exact copy_file_range_dated h (ht _ List.mem_cons_self) _ _ _ _ _ _
  | root_inode => exact root_inode_dated h (ht _ List.mem_cons_self) _ _
  | umount =>
    refine h.of_write fun _ db' htx => ?_
    simp at htx
    obtain ⟨_, rfl⟩ := htx
    exact h.sb_put _ _
  | sync_fs =>
    refine h.of_write fun _ db' htx => ?_
    simp at htx
    subst htx
    exact fun n k v hget => h n k v hget
  | dbfs_rename => exact dbfs_rename_dated h _ _ _ _
  | dbfs_setattr => exact setattr_dated h _ _ _
  | dbfs_removeattr => exact removeattr_dated h _ _
  | _ => exact hhooked _ rfl ht

end ops

/-! ## Runs -/

section runs

variable [Features] {T : DbfsTimeSpec → Prop}

/-- A step: an operation whose times are in `T`, or other values of the statics, as another
thread or a new process has them. -/
inductive DatedStep (T : DbfsTimeSpec → Prop) (s : Sys) : Sys → Prop
  | op (op : Op) : (∀ t ∈ op.times, T t) → DatedStep T s (op.after s)
  | statics (number : UInt64) (table : OrdMap UInt64 ReadDirInfo) :
      DatedStep T s ⟨s.db, number, table⟩

theorem run_dated {s₀ s : Sys} (h : Stored (Dated T) s₀.db)
    (hrun : Relation.ReflTransGen (DatedStep T) s₀ s) : Stored (Dated T) s.db := by
  induction hrun with
  | refl => exact h
  | tail _ hstep ih =>
    rcases hstep with ⟨op, ht⟩ | ⟨number, table⟩
    · exact op_dated ih op ht
    · exact ih

omit [Features] in
/-- A time that is read back is one that was stored. -/
theorem Stored.time {db : Db} (h : Stored (Dated T) db) {n : UInt64} {f : Field} (hf : f.IsTime)
    {t : DbfsTimeSpec} (ht : (db.get n f.key).bind dbfs_time_spec = some t) : T t := by
  obtain ⟨v, hv, hspec⟩ := Option.bind_eq_some_iff.mp ht
  obtain ⟨t', ht', rfl⟩ := h n f.key v hv f hf rfl
  rw [dbfs_time_spec_be] at hspec
  cases hspec
  exact ht'

omit [Features] in
theorem Stored.shown {db : Db} (h : Stored (Dated T) db) {n : UInt64} {attr : DbfsAttr}
    (hattr : ShowsAttr db n attr) : T attr.atime ∧ T attr.mtime ∧ T attr.ctime :=
  ⟨h.time (.inl rfl) hattr.atime, h.time (.inr (.inl rfl)) hattr.mtime,
    h.time (.inr (.inr rfl)) hattr.ctime⟩

end runs

/-- Every time that an inode shows was given to some operation of the run: whatever set of times
holds those of all operations holds those that are shown. -/
theorem shown_times_were_given [Features] (T : DbfsTimeSpec → Prop) {s₀ s : Sys}
    (hempty : ∀ n, ¬ s₀.db.Has n) (hrun : Relation.ReflTransGen (DatedStep T) s₀ s) (n : UInt64)
    (attr : DbfsAttr) (h : dbfs_common_attr n s = (.Ok attr, s)) :
    T attr.atime ∧ T attr.mtime ∧ T attr.ctime := by
  have hstart : Stored (Dated T) s₀.db := by
    intro m k v hget
    rw [Db.get_of_not_has (hempty m)] at hget
    cases hget
  rw [dbfs_common_attr, Fs.read_ok] at h
  obtain ⟨⟨_, htx⟩, _⟩ := h
  exact (run_dated hstart hrun).shown (attr_tx_iff.mp htx).1

section sample

attribute [local instance] sli512_features

/-- A root inode made at one time, its times set at another. -/
def touched_root : Sys :=
  [Op.root_inode 0 0 ⟨5, 0⟩, .call 0 0 (.utimens 1 (some ⟨9, 0⟩) none ⟨7, 0⟩)].foldl
    (fun s op => op.after s) (fs_type.start ⟨some ∅, ∅⟩)

def touched_attr : DbfsAttr :=
  { ino := 1, size := 1, blocks := 1, atime := ⟨9, 0⟩, mtime := ⟨5, 0⟩, ctime := ⟨7, 0⟩,
    crtime := .default, kind := .Directory, perm := permission_from_mode .S_DIR, nlink := 2,
    uid := 0, gid := 0, rdev := 0, blksize := 512, padding := 0, flags := 0 }

theorem touched_root_times :
    dbfs_common_attr 1 touched_root = (.Ok touched_attr, touched_root) ∧
      touched_attr.mtime ∈ [(⟨5, 0⟩ : DbfsTimeSpec), ⟨7, 0⟩, ⟨9, 0⟩] := by
  have hattr : dbfs_common_attr 1 touched_root = (.Ok touched_attr, touched_root) :=
    Prod.ext (by decide +kernel) (by rw [dbfs_common_attr, Fs.read_state])
  have hrun : Relation.ReflTransGen
      (DatedStep (· ∈ [(⟨5, 0⟩ : DbfsTimeSpec), ⟨7, 0⟩, ⟨9, 0⟩]))
      (fs_type.start ⟨some ∅, ∅⟩) touched_root :=
    (Relation.ReflTransGen.single (.op (.root_inode 0 0 ⟨5, 0⟩) (by decide))).tail
      (.op (.call 0 0 (.utimens 1 (some ⟨9, 0⟩) none ⟨7, 0⟩)) (by decide))
  exact ⟨hattr, (shown_times_were_given _ (not_has_empty ∅) hrun 1 touched_attr hattr).2.1⟩

end sample

end dbfs2
