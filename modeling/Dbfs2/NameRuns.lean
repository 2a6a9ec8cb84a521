-- Runs of the naming calls on a new file system: the entries and the counts of the
-- directories agree after every run. Sockets and block devices carry the bit of a
-- directory and get the two dots, entries that no count has.
import Dbfs2.Names
import Mathlib.Logic.Relation

namespace dbfs2

open common Tx inode fs_type

/-! ## Runs -/

/-- What the VFS has checked before it makes a call. -/
def inode.NameCall.Vfs (db : Db) : NameCall → Prop
  | create dir name _ permission _ _ => db.IsDir dir ∧ name ≠ "." ∧ name ≠ ".." ∧
      db.get dir (generate_data_key name) = none ∧
      ∃ ty : DbfsFileType, permission &&& DbfsPermission.S_IFMT = ty.bits
  | link ino new_ino name _ => db.IsDir new_ino ∧ ¬ db.IsDir ino ∧ name ≠ "." ∧ name ≠ ".." ∧
      db.get new_ino (generate_data_key name) = none
  | unlink dir name _ => db.IsDir dir ∧ name ≠ "." ∧ name ≠ ".." ∧
      ∀ i, db.entry dir name = some i → ¬ db.IsDir i
  | rmdir p_ino name _ => db.IsDir p_ino ∧ name ≠ "." ∧ name ≠ ".." ∧
      ∀ i, db.entry p_ino name = some i → db.IsDir i
  | rename old_dir old_name new_dir new_name flags _ => db.IsDir old_dir ∧ db.IsDir new_dir ∧
      old_name ≠ "." ∧ old_name ≠ ".." ∧ new_name ≠ "." ∧ new_name ≠ ".." ∧
      db.get new_dir (generate_data_key new_name) = none ∧ flags = 0

/-- The call makes neither a socket nor a block device. -/
def inode.NameCall.Plain : NameCall → Prop
  | create _ _ _ permission _ _ => permission &&& DbfsPermission.S_IFMT ≠ DbfsPermission.S_IFSOCK ∧
      permission &&& DbfsPermission.S_IFMT ≠ DbfsPermission.S_IFBLK
  | _ => True

/-- The state that a call leaves, by any requester and with any number on the counter. -/
inductive NameStep [Features] (ok : NameCall → Prop) (db : Db) : Db → Prop
  | call (call : NameCall) (uid gid : UInt32) (number : UInt64)
      (table : OrdMap UInt64 ReadDirInfo) :
      call.Vfs db → ok call → NameStep ok db (call.run uid gid ⟨db, number, table⟩).2.db

/-- A database with a super block and a new root inode. -/
def root_db [Features] (super_blk : Bucket) (uid gid : UInt32) (ctime : DbfsTimeSpec) : Db :=
  (dbfs_common_root_inode uid gid ctime (start ⟨some super_blk, ∅⟩)).2.db

/-- The states of the runs whose calls all meet a condition. -/
def NameRun [Features] (ok : NameCall → Prop) (db : Db) : Prop :=
  ∃ super_blk uid gid ctime,
    Relation.ReflTransGen (NameStep ok) (root_db super_blk uid gid ctime) db

/-! ## The first state -/

section root

variable [Features] (super_blk : Bucket) (uid gid : UInt32) (ctime : DbfsTimeSpec)

/-- Where there is no root inode yet, the first number of the counter makes it. -/
theorem root_inode_fresh {s : Sys} (h : ¬ s.db.Has 1) :
    dbfs_common_root_inode uid gid ctime s =
      if s.DBFS_INODE_NUMBER = 1 then
        Fs.write (new_root_tx uid gid ctime)
          { s with DBFS_INODE_NUMBER := s.DBFS_INODE_NUMBER + 1 }
      else (.Panic, { s with DBFS_INODE_NUMBER := s.DBFS_INODE_NUMBER + 1 }) := by
  unfold dbfs_common_root_inode
  rw [if_neg h]
  change (Fs.unwrap (if s.DBFS_INODE_NUMBER = 1 then some () else none) >>= fun _ =>
    Fs.write (new_root_tx uid gid ctime))
      { s with DBFS_INODE_NUMBER := s.DBFS_INODE_NUMBER + 1 } = _
  split_ifs <;> rfl

theorem new_root_tx_eq {db : Db} (h : ¬ db.Has 1) : new_root_tx uid gid ctime db =
    .Ok (1, (db.create 1).puts 1 (root_fields uid gid ctime)) := by
  simp only [new_root_tx, bind_ok, create_bucket_ok, read_usize_ok]
  exact ⟨(), _, ⟨h, rfl⟩, (), _, (puts_ok (by simp)).mpr rfl, by simp [root_fields, usize_be], rfl⟩

omit [Features] in
theorem not_has_empty (n : UInt64) : ¬ (⟨some super_blk, ∅⟩ : Db).Has n := by
  simp [Db.Has, Store.Has]

theorem root_db_eq : root_db super_blk uid gid ctime =
    ((⟨some super_blk, ∅⟩ : Db).create 1).puts 1 (root_fields uid gid ctime) := by
  have hempty := not_has_empty super_blk 1
  rw [root_db, start, root_inode_fresh _ _ _ hempty]
  simp only [if_true, Fs.write, new_root_tx_eq _ _ _ hempty]

theorem root_db_has (n : UInt64) : (root_db super_blk uid gid ctime).Has n ↔ n = 1 := by
  rw [root_db_eq]
  simp [not_has_empty]

theorem root_db_isDir (n : UInt64) : (root_db super_blk uid gid ctime).IsDir n ↔ n = 1 := by
  refine ⟨fun h => (root_db_has ..).mp (Db.has_of_isDir h), ?_⟩
  rintro rfl
  rw [root_db_eq]
  simp [Db.IsDir, Db.kind, root_fields]
  decide

/-- The root has one entry, for itself. -/
theorem root_db_get {n : UInt64} {k : Bytes} (hk : is_data_key k = true) :
    (root_db super_blk uid gid ctime).get n k =
      if n = 1 ∧ k = dot then some (ino_bytes 1) else none := by
  have hne : ∀ f : Field, k ≠ f.key := fun f => ne_of_is_data_key hk (by simp)
  have hone : as_bytes "1" = ino_bytes 1 := by decide
  by_cases hn : n = 1
  · subst hn
    rw [root_db_eq]
    simp [root_fields, hne, hone, dot]
  · rw [if_neg (fun e => hn e.1), Db.get_of_not_has (fun e => hn ((root_db_has ..).mp e))]

theorem root_db_edge (n : UInt64) (k : Bytes) : (root_db super_blk uid gid ctime).graph.edge n k =
    if n = 1 ∧ k = dot then some 1 else none := by
  have hdot : is_data_key dot = true := by simp [dot]
  by_cases hk : is_data_key k = true
  · simp only [Db.graph, root_db_isDir, hk, and_true, Db.ref,
      root_db_get super_blk uid gid ctime hk]
    split_ifs with h1 h2 h2
    · simp
    · rfl
    · exact absurd h2.1 h1
    · rfl
  · have hne : ¬ (n = 1 ∧ k = dot) := fun e => hk (e.2 ▸ hdot)
    simp [Db.graph, hk, hne]

theorem root_db_names :
    Names (root_db super_blk uid gid ctime) ∧ Bare (root_db super_blk uid gid ctime) := by
  have hedge := root_db_edge super_blk uid gid ctime
  have hdir := root_db_isDir super_blk uid gid ctime
  have hsome : ∀ n k i, (root_db super_blk uid gid ctime).graph.edge n k = some i →
      n = 1 ∧ k = dot ∧ i = 1 := by
    intro n k i he
    rw [hedge] at he
    split_ifs at he with h
    cases he
    exact ⟨h.1, h.2, rfl⟩
  refine ⟨⟨?_, fun n k v hn hv hk => ?_, fun n hn => ?_, fun i hi hd => ?_⟩,
    ⟨fun n k hn hk => ?_, fun n m hn hm => ?_⟩⟩
  · exact
      { finite := (Set.finite_singleton ((1 : UInt64), dot)).subset fun p hp => by
          obtain ⟨i, hi⟩ := Option.ne_none_iff_exists'.mp hp
          obtain ⟨h1, h2, _⟩ := hsome _ _ _ hi
          exact Prod.ext h1 h2
        dir_node := fun hn => Db.has_of_isDir hn
        edge_dir := fun he => (hdir _).mpr (hsome _ _ _ he).1
        root_dir := (hdir 1).mpr rfl
        root_top := by
          rw [hedge, if_neg (fun e => dot_ne_dotdot e.2.symm)]
        self := fun hn => by
          rw [(hdir _).mp hn, hedge, if_pos ⟨rfl, rfl⟩]
        parent := fun hn hne => absurd ((hdir _).mp hn) hne
        child := fun hk he => absurd (hsome _ _ _ he).2.1 hk.1
        back := fun hk _ he => absurd (hsome _ _ _ he).2.1 hk.1
        once := fun hk _ _ he _ => absurd (hsome _ _ _ he).2.1 hk.1 }
  · rw [root_db_get super_blk uid gid ctime hk] at hv
    split_ifs at hv
    cases hv
    exact ⟨1, parse_ino_bytes 1⟩
  · rw [hdir] at hn
    subst hn
    have hkeys : (root_db super_blk uid gid ctime).graph.keys 1 = {dot} := by
      ext k
      simp [NameGraph.keys, hedge]
    rw [NameGraph.size, hkeys, Set.ncard_singleton, root_db_eq]
    simp [root_fields, usize_be]
  · exact absurd ((hdir i).mpr ((root_db_has ..).mp hi)) hd
  · rw [Db.get_of_not_has fun e => hn ((hdir n).mpr ((root_db_has ..).mp e))]
  · exact absurd ((hdir n).mpr ((root_db_has ..).mp (Db.has_of_u16 hm))) hn

end root

/-! ## Every run -/

/-- A call keeps the names in order, and keeps entries out of other inodes unless it makes a
socket or a block device. -/
theorem call_names [Features] {db : Db} (h : Names db) (call : NameCall) (uid gid : UInt32)
    (number : UInt64) (table : OrdMap UInt64 ReadDirInfo) (hvfs : call.Vfs db) :
    Names (call.run uid gid ⟨db, number, table⟩).2.db ∧
      (call.Plain → Bare db → Bare (call.run uid gid ⟨db, number, table⟩).2.db) := by
  have hsame : ∀ {db'}, db' = db → Names db' ∧ (call.Plain → Bare db → Bare db') := by
    rintro _ rfl
    exact ⟨h, fun _ hb => hb⟩
  cases call with
  | create dir name t permission target_path dev =>
    obtain ⟨hdir, h1, h2, hfree, ty, hty⟩ := hvfs
    rw [NameCall.run, Fs.discard_state]
    rcases create_db dir permission target_path dev ⟨db, number, table⟩ with he | ⟨r, htx⟩
    · exact hsame he
    · obtain ⟨hnames, hbare⟩ := create_names h hty htx hdir h1 h2 hfree
      refine ⟨hnames, fun hplain => hbare ?_ ?_⟩
      · rintro rfl
        exact hplain.1 hty
      · rintro rfl
        exact hplain.2 hty
  | link ino new_ino name t =>
    obtain ⟨hdir, hino, h1, h2, hfree⟩ := hvfs
    rw [NameCall.run, Fs.discard_state]
    rcases link_db ino new_ino ⟨db, number, table⟩ with he | htx
    · exact hsame he
    · obtain ⟨hnames, hbare⟩ := link_names h htx hdir hino h1 h2 hfree
      exact ⟨hnames, fun _ => hbare⟩
  | unlink dir name t =>
    obtain ⟨hdir, h1, h2, htarget⟩ := hvfs
    rcases Fs.write_state (unlink_tx uid gid dir name none t) ⟨db, number, table⟩ with
      he | ⟨_, db', htx, he⟩
    · exact hsame (congrArg Sys.db he)
    · obtain ⟨hnames, hbare⟩ := unlink_names h htx hdir htarget h1 h2
      rw [NameCall.run, dbfs_common_unlink, he]
      exact ⟨hnames, fun _ => hbare⟩
  | rmdir dir name t =>
    obtain ⟨hdir, h1, h2, htarget⟩ := hvfs
    rcases Fs.write_state (rmdir_tx uid gid dir name t) ⟨db, number, table⟩ with
      he | ⟨_, db', htx, he⟩
    · exact hsame (congrArg Sys.db he)
    · obtain ⟨hnames, hbare⟩ := rmdir_names h htx hdir htarget h1 h2
      rw [NameCall.run, dbfs_common_rmdir, he]
      exact ⟨hnames, fun _ => hbare⟩
  | rename old_dir old_name new_dir new_name flags t =>
    obtain ⟨hod, hnd, h1, h2, h3, h4, hfree, rfl⟩ := hvfs
    rcases rename_db (s := ⟨db, number, table⟩) with he | ⟨old, new, ⟨_, hold⟩, ⟨_, hnew⟩, htx⟩
    · exact hsame he
    · obtain ⟨hnames, hbare⟩ := rename_names h hold hnew htx hod hnd h1 h2 h3 h4 hfree
      exact ⟨hnames, fun _ => hbare⟩

/-- The names are in order after every run. -/
theorem NameRun.names [Features] {ok : NameCall → Prop} {db : Db} (h : NameRun ok db) :
    Names db ∧ ((∀ call, ok call → call.Plain) → Bare db) := by
  obtain ⟨super_blk, uid, gid, ctime, hrun⟩ := h
  induction hrun with
  | refl =>
    obtain ⟨hnames, hbare⟩ := root_db_names super_blk uid gid ctime
    exact ⟨hnames, fun _ => hbare⟩
  | tail _ hstep ih =>
    obtain ⟨call, uid, gid, number, table, hvfs, hok⟩ := hstep
    obtain ⟨hnames, hbare⟩ := call_names ih.1 call uid gid number table hvfs
    exact ⟨hnames, fun hplain => hbare (hplain call hok) (ih.2 hplain)⟩

/-- A new inode that is no directory and yet has the dots is referred to twice, with one link. -/
theorem dots_not_consistent {db db' : Db} {n dir : UInt64} {name : String} {ty : DbfsFileType}
    {permission : DbfsPermission} (hc : Created db db' n dir name ty permission)
    (hty : ty ≠ .Directory) (hbit : permission.contains DbfsPermission.S_IFDIR = true)
    (hdir : db.Has dir) : ¬ Consistent (fun _ => true) db' := by
  intro h
  have hdn : dir ≠ n := fun e => hc.fresh (e ▸ hdir)
  have hhas : db'.Has n := (hc.has n).mpr (.inl rfl)
  obtain ⟨links, hlinks, hcount⟩ := h.links n hhas (fun e => hty (hc.new_isDir.mp e))
  rw [hc.new_counts.2 hty] at hlinks
  cases hlinks
  rw [Db.ref_count, Store.total_eq_ncard] at hcount
  obtain ⟨p, hp⟩ := Set.ncard_eq_one.mp hcount.symm
  -- the name in the directory and the inode's own dot
  have hname : db'.get dir (generate_data_key name) = some (ino_bytes n) := by
    rw [hc.get dir _ hdn (by simp)]
    simp [edited]
  have hself : db'.get n dot = some (ino_bytes n) := by
    rw [hc.new_get dot (by simp [dot]), new_dots, if_pos hbit]
    simp [dot]
  have hmem : ∀ a k, is_data_key k = true → db'.get a k = some (ino_bytes n) → (a, k) = p := by
    intro a k hk hget
    obtain ⟨b, hb, hv⟩ := Store.get_eq_some.mp hget
    rw [← Set.mem_singleton_iff, ← hp]
    exact ⟨b, _, hb, rfl, hv, by simp [Db.refers, hk]⟩
  have hsame := (hmem dir _ (by simp) hname).trans (hmem n dot (by simp [dot]) hself).symm
  exact hdn (Prod.mk.inj hsame).1

/-- The names of the directories are consistent after every run. Those of all inodes are as
long as no socket and no block device is made, and the first one that is made ends it. -/
theorem names_consistent_until_dots [Features] :
    (∀ db, NameRun (fun _ => True) db → Consistent is_dir_bucket db) ∧
    ∀ db, NameRun NameCall.Plain db → Consistent (fun _ => true) db ∧
      ∀ (call : NameCall) uid gid number table s', call.Vfs db →
        call.run uid gid ⟨db, number, table⟩ = (.Ok (), s') →
        (Consistent (fun _ => true) s'.db ↔ call.Plain) := by
  refine ⟨fun db h => h.names.1.consistent_dirs, fun db h => ?_⟩
  obtain ⟨hnames, hbare⟩ := h.names
  have hbare := hbare fun _ hok => hok
  refine ⟨hnames.consistent hbare, fun call uid gid number table s' hvfs hrun => ⟨?_, ?_⟩⟩
  · intro hcons
    by_contra hplain
    cases call with
    | create dir name t permission target_path dev =>
      obtain ⟨hdir, _, _, _, ty, hty⟩ := hvfs
      simp only [NameCall.run, Fs.bind_ok, Fs.pure_ok] at hrun
      obtain ⟨attr, _, hrun, _, rfl⟩ := hrun
      obtain ⟨_, r, htx⟩ := create_spec hrun
      have hc := create_created hty htx (Db.has_of_isDir hdir)
      rw [NameCall.Plain, hty] at hplain
      have hty' : ty = .Socket ∨ ty = .BlockDevice := by
        revert hplain
        cases ty <;> decide
      refine dots_not_consistent hc ?_ ((contains_dir_bit hty).mpr (.inr hty'))
        (Db.has_of_isDir hdir) hcons
      rcases hty' with rfl | rfl <;> decide
    | _ => exact hplain trivial
  · intro hplain
    obtain ⟨hnames', hbare'⟩ := call_names hnames call uid gid number table hvfs
    rw [hrun] at hnames' hbare'
    exact hnames'.consistent (hbare' hplain hbare)

/-! ## A socket whose parent is gone -/

section sample

/-- The state after some calls of root, given the last one first. -/
def after_calls [Features] : List NameCall → Db
  | [] => root_db ∅ 0 0 .default
  | call :: calls =>
    (call.run 0 0 ⟨after_calls calls, UInt64.ofNat (calls.length + 2), ∅⟩).2.db

theorem after_no_calls [Features] (ok : NameCall → Prop) : NameRun ok (after_calls []) :=
  ⟨∅, 0, 0, .default, .refl⟩

theorem NameRun.after [Features] {ok : NameCall → Prop} {calls : List NameCall}
    (h : NameRun ok (after_calls calls)) (call : NameCall) (hvfs : call.Vfs (after_calls calls))
    (hok : ok call) :
    NameRun ok (after_calls (call :: calls)) := by
  obtain ⟨super_blk, uid, gid, ctime, hrun⟩ := h
  exact ⟨super_blk, uid, gid, ctime, hrun.tail (.call call 0 0 _ ∅ hvfs hok)⟩

def mkdir_d : NameCall :=
  .create 1 "d" .default (DbfsPermission.S_IFDIR ||| 0o755) none none

def mknod_s : NameCall :=
  .create 2 "s" .default (DbfsPermission.S_IFSOCK ||| 0o644) none none

/-- A directory, a socket in it, a second name for the socket beside the directory; then the
first name and the directory go. -/
def dangling_calls : List NameCall :=
  [.rmdir 1 "d" .default, .unlink 2 "s" .default, .link 3 1 "t" .default, mknod_s, mkdir_d]

attribute [local instance] sli512_features

theorem mkdir_d_run {ok : NameCall → Prop} (hok : ok mkdir_d) :
    NameRun ok (after_calls [mkdir_d]) :=
  (after_no_calls ok).after mkdir_d ⟨by decide +kernel, by decide, by decide, by decide +kernel,
    .Directory, by decide⟩ hok

theorem mknod_s_vfs : mknod_s.Vfs (after_calls [mkdir_d]) :=
  ⟨by decide +kernel, by decide, by decide, by decide +kernel, .Socket, by decide⟩

theorem dangling_run : NameRun (fun _ => True) (after_calls dangling_calls) := by
  have h1 : NameRun (fun _ => True) (after_calls [mkdir_d]) := mkdir_d_run trivial
  have h2 := h1.after mknod_s mknod_s_vfs trivial
  have h3 := h2.after (.link 3 1 "t" .default)
    ⟨by decide +kernel, by decide +kernel, by decide, by decide, by decide +kernel⟩ trivial
  have hs : (after_calls [.link 3 1 "t" .default, mknod_s, mkdir_d]).entry 2 "s" = some 3 := by
    decide +kernel
  have h4 := h3.after (.unlink 2 "s" .default)
    ⟨by decide +kernel, by decide, by decide, fun i hi => by
      cases hs.symm.trans hi
      decide +kernel⟩ trivial
  have hd : (after_calls [.unlink 2 "s" .default, .link 3 1 "t" .default, mknod_s, mkdir_d]).entry
      1 "d" = some 2 := by
    decide +kernel
  exact h4.after (.rmdir 1 "d" .default)
    ⟨by decide +kernel, by decide, by decide, fun i hi => by
      cases hd.symm.trans hi
      decide +kernel⟩ trivial

theorem a_socket_keeps_a_lost_parent :
    NameRun (fun _ => True) (after_calls dangling_calls) ∧
      (after_calls dangling_calls).ref 3 dotdot = some 2 ∧
      ¬ (after_calls dangling_calls).Has 2 ∧
      ¬ Consistent (fun _ => true) (after_calls dangling_calls) := by
  have hget : (after_calls dangling_calls).get 3 dotdot = some (ino_bytes 2) := by decide +kernel
  have hgone : ¬ (after_calls dangling_calls).Has 2 := by decide +kernel
  refine ⟨dangling_run, ref_ino_bytes hget, hgone, fun h => ?_⟩
  obtain ⟨b, hb, hv⟩ := Store.get_eq_some.mp hget
  obtain ⟨i, hi, hhas⟩ := h.entry 3 b dotdot _ hb rfl hv (by simp [dotdot])
  rw [parse_ino_bytes] at hi
  cases hi
  exact hgone hhas

/-- A directory leaves the names consistent, and a socket in it does not. -/
theorem a_directory_and_then_a_socket :
    Consistent (fun _ => true) (after_calls [mkdir_d]) ∧
      ¬ Consistent (fun _ => true) (after_calls [mknod_s, mkdir_d]) := by
  obtain ⟨hdir, hnext⟩ := names_consistent_until_dots.2 (after_calls [mkdir_d])
    (mkdir_d_run ⟨by decide, by decide⟩)
  refine ⟨hdir, fun hcons => ?_⟩
  have hplain := (hnext mknod_s 0 0 3 ∅ _ mknod_s_vfs (Prod.ext (by decide +kernel) rfl)).mp hcons
  exact hplain.1 (by decide)

end sample

end dbfs2
