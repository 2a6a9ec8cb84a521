-- The tree of a database over many sessions: mounts by either front end, calls, unmounts,
-- and processes that end without one. The numbers of a FUSE session start from one again;
-- a create is then refused until the counter has passed the inodes that are there.
import Dbfs2.Sessions
import Dbfs2.TreeRuns

namespace dbfs2

open common Tx inode attr file fs_type

/-! ## Sessions with the tree that their replies tell -/

def Phase.db : Phase → Db
  | rest db => db
  | mounted _ s => s.db

section sessions

variable [Features]

/-- A database from its first mount on. A call is one transaction, so that a process that dies in
one leaves the database from before or from after it. -/
inductive TreeSession : Phase → FileTree → Prop
  | first {front : Front} {db : Db} {s : Sys} : Blank db →
      front.mount (start db) = (.Ok (), s) → TreeSession (.mounted front s) root_tree
  | call {front : Front} {s : Sys} {t : FileTree} (c : Call) (uid gid : UInt32) :
      TreeSession (.mounted front s) t → c.Allowed t →
      TreeSession (.mounted front (c.run uid gid s).2) (c.seen uid gid s t)
  | listing {front : Front} {s : Sys} {t : FileTree} (table : OrdMap UInt64 ReadDirInfo) :
      TreeSession (.mounted front s) t →
      TreeSession (.mounted front { s with GLOBAL_READDIR_TABLE := table }) t
  | sync {front : Front} {s : Sys} {t : FileTree} : TreeSession (.mounted front s) t →
      TreeSession (.mounted front (dbfs_sync_fs s).2) t
  | unmount {front : Front} {s : Sys} {t : FileTree} : TreeSession (.mounted front s) t →
      TreeSession (.rest (front.unmount s).2.db) t
  | died {front : Front} {s : Sys} {t : FileTree} : TreeSession (.mounted front s) t →
      TreeSession (.rest s.db) t
  | remount {db : Db} {t : FileTree} (front : Front) : TreeSession (.rest db) t →
      TreeSession (Phase.mount front db) t

/-! ## The super block is not part of the tree -/

variable {db db' : Db} {s s' : Sys} {t : FileTree}

theorem ShowsTree.of_inodes (h : ShowsTree db t) (hi : db'.inodes = db.inodes) :
    ShowsTree db' t := by
  have hget : ∀ n k, db'.get n k = db.get n k := fun n k => by rw [Db.get, Db.get, hi]
  have hhas : ∀ n, db'.Has n ↔ db.Has n := fun n => by rw [Db.Has, Db.Has, hi]
  have hsame : NamesKept db db' :=
    ⟨hhas, fun n => by rw [Db.kind, Db.kind, Db.u16, Db.u16, hget], fun n k _ => hget n k⟩
  have hreadable : Readable db' :=
    h.readable.changes ⟨fun n _ => (hhas n).mp, fun n k _ _ => .inl (hget n k)⟩
  exact h.kept (n := 1) hsame hreadable (fun m k _ => hget m k) fun k _ => hget 1 k

omit [Features] in
theorem umount_inodes (s : Sys) : (dbfs_common_umount s).2.db.inodes = s.db.inodes := by
  rcases hsb : s.db.super_blk with _ | sb
  · rw [umount_drops hsb]
  · rw [umount_saves (Option.isSome_iff_exists.mpr ⟨sb, hsb⟩)]
    rfl

omit [Features] in
theorem sync_inodes (s : Sys) : (dbfs_sync_fs s).2.db.inodes = s.db.inodes := by
  have hwrite : dbfs_sync_fs s = (.Ok (), { s with
      db := Db.sb_put ⟨some (s.db.super_blk.getD ∅), s.db.inodes⟩ .continue_number
        (be_usize s.DBFS_INODE_NUMBER.toNat) }) := rfl
  rw [hwrite]
  rfl

theorem init_db_inodes (db : Db) : ∃ sb, init_db FILE_SIZE (start db) =
    (.Ok (), start ⟨some sb, db.inodes⟩) := by
  obtain ⟨_ | sb, inodes⟩ := db
  · exact ⟨new_super_blk FILE_SIZE, rfl⟩
  · exact ⟨sb, rfl⟩

/-- A later mount finds the root inode, and at most makes a super block. -/
theorem mount_inodes (front : Front) (h : db.Has 1) :
    (front.mount (start db)).2.db.inodes = db.inodes := by
  cases front with
  | fuse uid gid time =>
    obtain ⟨sb, hinit⟩ := init_db_inodes db
    rw [Front.mount, fuse_init, Fs.bind_eq, hinit, Fs.discard_state,
      root_inode_there uid gid time (show Db.Has _ 1 from h)]
    rfl
  | rvfs =>
    by_cases hok : ∃ r, (Front.rvfs.mount (start db)).1 = .Ok r
    · obtain ⟨_, hr⟩ := hok
      obtain ⟨c, _, _, hs⟩ := rvfs_ok (Prod.ext hr rfl)
      refine (congrArg (·.db.inodes) hs).trans ?_
      dsimp only
      rw [root_inode_there 0 0 .default (show Db.Has _ 1 from h)]
      rfl
    · rw [rvfs_fails fun r hr => hok ⟨r, hr⟩]

/-- The first mount makes the root inode and nothing else. -/
theorem mount_blank {front : Front} (hblank : Blank db)
    (h : front.mount (start db) = (.Ok (), s)) :
    ∃ super_blk uid gid ctime, s.db.inodes = (root_db super_blk uid gid ctime).inodes := by
  have hempty : db.inodes = ∅ := OrdMap.ext_find? fun n => by
    have hn := hblank n
    rw [Db.Has, Store.Has] at hn
    simpa using hn
  cases front with
  | fuse uid gid time =>
    obtain ⟨sb, hinit⟩ := init_db_inodes db
    have hs := congrArg Prod.snd h
    rw [Front.mount, fuse_init, Fs.bind_eq, hinit, Fs.discard_state, hempty] at hs
    refine ⟨sb, uid, gid, time, ?_⟩
    rw [root_db, hs]
  | rvfs =>
    obtain ⟨c, hc, hone, hs⟩ := rvfs_ok h
    have hstart : ({ start db with DBFS_INODE_NUMBER := UInt64.ofNat 1 } : Sys) = start db := rfl
    rw [hone (hblank 1), hstart] at hs
    obtain ⟨_ | sb, inodes⟩ := db
    · cases hc
    · refine ⟨sb, 0, 0, .default, ?_⟩
      obtain rfl : inodes = ∅ := hempty
      rw [root_db, hs]

theorem Phase.mount_db (front : Front) (db : Db) :
    (Phase.mount front db).db = (front.mount (start db)).2.db := by
  unfold Phase.mount
  rcases front.mount (start db) with ⟨_ | _ | _, s⟩ <;> rfl

theorem TreeSession.shows {phase : Phase} (h : TreeSession phase t) : ShowsTree phase.db t := by
  induction h with
  | first hblank hmount =>
    obtain ⟨super_blk, uid, gid, ctime, hi⟩ := mount_blank hblank hmount
    exact (root_shows super_blk uid gid ctime).of_inodes hi
  | call c uid gid _ hc ih => exact ShowsTree.call ih c hc uid gid
  | listing _ _ ih => exact ih
  | sync _ ih => exact ih.of_inodes (sync_inodes _)
  | @unmount front s t _ ih =>
    refine ih.of_inodes ?_
    cases front with
    | fuse => exact umount_inodes s
    | rvfs => exact umount_inodes s
  | died _ ih => exact ih
  | @remount db t front _ ih =>
    refine ih.of_inodes ?_
    rw [Phase.mount_db]
    exact mount_inodes front (Db.has_of_isDir (NameGraph.WellFormed.root_dir ih.names.wf))

/-- A FUSE mount of a database with a tree goes through, and its counter is the one of a new
process. -/
theorem ShowsTree.fuse_mounts (h : ShowsTree db t) (uid gid : UInt32) (time : DbfsTimeSpec) :
    ∃ sb, (Front.fuse uid gid time).mount (start db) =
      (.Ok (), start ⟨some sb, db.inodes⟩) := by
  obtain ⟨sb, hinit⟩ := init_db_inodes db
  have hroot : db.IsDir 1 := h.names.wf.root_dir
  have hsize : read_usize 1 .size ⟨some sb, db.inodes⟩ =
      .Ok (db.graph.size 1, ⟨some sb, db.inodes⟩) :=
    read_usize_ok.mpr ⟨h.names.size 1 hroot, rfl⟩
  have hthere : (start ⟨some sb, db.inodes⟩).db.Has 1 := Db.has_of_isDir hroot
  refine ⟨sb, ?_⟩
  rw [Front.mount, fuse_init, Fs.bind_eq, hinit]
  refine Fs.bind_ok.mpr ⟨db.graph.size 1, _, ?_, rfl⟩
  rw [dbfs_common_root_inode, if_pos hthere]
  exact Fs.write_ok.mpr ⟨_, hsize, rfl⟩

theorem TreeSession.mounts {front : Front} (h : TreeSession (.rest db) t)
    (hmount : front.mount (start db) = (.Ok (), s)) : TreeSession (.mounted front s) t := by
  have hphase := h.remount front
  rwa [mount_of_ok (congrArg Prod.fst hmount), hmount] at hphase

/-- Over sessions of allowed calls through both front ends the replies are those of the tree that
the earlier ones told, also after a process that did not unmount; and FUSE can always mount
again. -/
theorem sessions_keep_the_tree {front : Front} (h : TreeSession (.mounted front s) t) :
    Answers s t ∧ ∀ db ∈ [(front.unmount s).2.db, s.db],
      (∀ (front' : Front) (s' : Sys), front'.mount (start db) = (.Ok (), s') → Answers s' t) ∧
      ∀ uid gid time, ∃ s', (Front.fuse uid gid time).mount (start db) = (.Ok (), s') := by
  have hrest : ∀ db ∈ [(front.unmount s).2.db, s.db], TreeSession (.rest db) t := by
    simpa using ⟨h.unmount, h.died⟩
  refine ⟨h.shows.answers, fun db hdb => ⟨fun front' s' hmount => ?_, fun uid gid time => ?_⟩⟩
  · exact ((hrest db hdb).mounts hmount).shows.answers
  · obtain ⟨sb, hmount⟩ := (hrest db hdb).shows.fuse_mounts uid gid time
    exact ⟨_, hmount⟩

/-! ## A create that meets used numbers -/

variable {dir : UInt64} {name : String} {c_time : DbfsTimeSpec} {permission : DbfsPermission}
  {target_path : Option String} {dev : Option UInt32} {uid gid : UInt32} {number : UInt64}

theorem create_tx_refused {size : Nat} (hgrants : db.Grants dir uid gid)
    (hsize : db.usize dir .size = some size) (hlt : size + 1 < 2 ^ 64) (h : db.Has number) :
    create_tx number dir name uid gid c_time permission target_path dev db =
      .Err .FileExists := by
  obtain ⟨p_uid, p_gid, p_mode, huid, hgid, hmode, hacc⟩ := hgrants
  have hdir := Db.has_of_u16 hmode
  simp [create_tx, new_inode_tx]
  exact ⟨hdir, p_uid, huid, p_gid, hgid, p_mode, hmode, hacc, size, hsize, hlt, hdir, h⟩

theorem create_tx_granted {size : Nat} (hgrants : db.Grants dir uid gid)
    (hsize : db.usize dir .size = some size) (hlt : size + 1 < 2 ^ 64) (h : ¬ db.Has number)
    (htarget : permission.contains DbfsPermission.S_IFLNK = true → target_path.isSome = true) :
    ∃ r db', create_tx number dir name uid gid c_time permission target_path dev db =
      .Ok (r, db') := by
  obtain ⟨p_uid, p_gid, p_mode, huid, hgid, hmode, hacc⟩ := hgrants
  have hdir := Db.has_of_u16 hmode
  have hcounts : ∃ a b c, new_counts permission target_path dev = some (a, b, c) := by
    unfold new_counts
    split_ifs with _ _ hlink
    · exact ⟨_, _, _, rfl⟩
    · exact ⟨_, _, _, rfl⟩
    · obtain ⟨target, ht⟩ := Option.isSome_iff_exists.mp (htarget hlink)
      exact ⟨_, _, _, by rw [ht, Option.map_some]⟩
    · exact ⟨_, _, _, rfl⟩
  have hnew : ∃ kvs, new_target permission target_path = some kvs := by
    unfold new_target
    split_ifs with hlink
    · obtain ⟨target, ht⟩ := Option.isSome_iff_exists.mp (htarget hlink)
      exact ⟨_, by rw [ht, Option.map_some]⟩
    · exact ⟨_, rfl⟩
  simp [create_tx, new_inode_tx]
  exact ⟨hdir, p_uid, huid, p_gid, hgid, p_mode, hmode, hacc, size, hsize, hlt, hdir, h, hcounts,
    hnew⟩

/-- The state after a call was made so many times, whatever it replied. -/
def Fs.made {α : Type} (c : Fs α) (i : Nat) (s : Sys) : Sys := (fun s => (c s).2)^[i] s

/-- The counter has moved on by so many numbers. -/
def Sys.passed (s : Sys) (i : Nat) : Sys :=
  { s with DBFS_INODE_NUMBER := s.DBFS_INODE_NUMBER + UInt64.ofNat i }

/-- A create that the kernel may make and the directory grants. -/
structure MayCreate (db : Db) (t : FileTree) (dir : UInt64) (name : String) (uid gid : UInt32)
    (c_time : DbfsTimeSpec) (permission : DbfsPermission) (target_path : Option String)
    (dev : Option UInt32) : Prop where
  allowed : (NameCall.create dir name c_time permission target_path dev).Allowed t.names
  grants : db.Grants dir uid gid
  target : permission.contains DbfsPermission.S_IFLNK = true → target_path.isSome = true

section retries

variable (h : ShowsTree s.db t)
  (hmay : MayCreate s.db t dir name uid gid c_time permission target_path dev)

include h hmay

theorem MayCreate.size : ∃ size, s.db.usize dir .size = some size ∧ size + 1 < 2 ^ 64 := by
  obtain ⟨hdir, _, _, _, hle, _⟩ := hmay.allowed
  refine ⟨_, h.names.size dir (h.isDir.mp hdir), ?_⟩
  rw [h.graph]
  unfold MAX_SIZE at hle
  omega

theorem MayCreate.refused (hused : s.db.Has s.DBFS_INODE_NUMBER) :
    dbfs_common_create dir name uid gid c_time permission target_path dev s =
      (.Err .FileExists, s.passed 1) := by
  obtain ⟨size, hsize, hlt⟩ := hmay.size h
  unfold dbfs_common_create
  change (Fs.write (create_tx s.DBFS_INODE_NUMBER dir name uid gid c_time permission target_path
    dev) >>= _) { s with DBFS_INODE_NUMBER := s.DBFS_INODE_NUMBER + 1 } = _
  rw [Fs.bind_write]
  simp only [create_tx_refused hmay.grants hsize hlt hused]
  rfl

theorem MayCreate.granted (hfree : ¬ s.db.Has s.DBFS_INODE_NUMBER) :
    ∃ attr s', attr.ino = s.DBFS_INODE_NUMBER ∧
      dbfs_common_create dir name uid gid c_time permission target_path dev s = (.Ok attr, s') := by
  obtain ⟨size, hsize, hlt⟩ := hmay.size h
  obtain ⟨_, _, _, _, _, ty, hty, _⟩ := hmay.allowed
  obtain ⟨r, db', htx⟩ := create_tx_granted hmay.grants hsize hlt hfree hmay.target
  obtain ⟨attr, hino, hrun⟩ := create_of_tx hty htx
  exact ⟨attr, _, hino, hrun⟩

/-- Each refused create moves the counter and nothing else. -/
theorem MayCreate.made {k : Nat}
    (hused : ∀ i < k, s.db.Has (s.passed i).DBFS_INODE_NUMBER) :
    (dbfs_common_create dir name uid gid c_time permission target_path dev).made k s =
      s.passed k := by
  induction k with
  | zero => simp [Fs.made, Sys.passed]
  | succ k ih =>
    have hk := ih fun i hi => hused i (Nat.lt_succ_of_lt hi)
    have hnext := MayCreate.refused (s := s.passed k) h hmay (hused k (Nat.lt_succ_self k))
    rw [Fs.made] at hk
    rw [Fs.made, Function.iterate_succ_apply', hk, hnext]
    simp only [Sys.passed, UInt64.ofNat_add, UInt64.add_assoc]

end retries

/-- In a session of allowed calls a create that is allowed and granted is refused just while the
counter meets inodes that are there, and made again goes through at the first number past them. -/
theorem create_goes_through {front : Front} (h : TreeSession (.mounted front s) t)
    (hmay : MayCreate s.db t dir name uid gid c_time permission target_path dev) (k : Nat)
    (hused : ∀ i < k, s.DBFS_INODE_NUMBER + UInt64.ofNat i ∈ t.names.node)
    (hfree : s.DBFS_INODE_NUMBER + UInt64.ofNat k ∉ t.names.node) :
    (∀ i < k, (dbfs_common_create dir name uid gid c_time permission target_path dev
      ((dbfs_common_create dir name uid gid c_time permission target_path dev).made i s)).1 =
        .Err .FileExists) ∧
    ∃ attr s', dbfs_common_create dir name uid gid c_time permission target_path dev
      ((dbfs_common_create dir name uid gid c_time permission target_path dev).made k s) =
        (.Ok attr, s') ∧ attr.ino = s.DBFS_INODE_NUMBER + UInt64.ofNat k ∧
      Answers s' ((Call.naming (.create dir name c_time permission target_path dev)).on attr.ino
        t) := by
  have hshows := h.shows
  have hhas : ∀ i < k, s.db.Has (s.passed i).DBFS_INODE_NUMBER := fun i hi =>
    hshows.node.mp (hused i hi)
  constructor
  · intro i hi
    rw [hmay.made hshows fun j hj => hhas j (hj.trans hi),
      MayCreate.refused (s := s.passed i) hshows hmay (hhas i hi)]
  · rw [hmay.made hshows hhas]
    obtain ⟨attr, s', hino, hrun⟩ := MayCreate.granted (s := s.passed k) hshows hmay
      fun hn => hfree (hshows.node.mpr hn)
    have hreply : (Call.naming (.create dir name c_time permission target_path dev)).run uid gid
        (s.passed k) = (.Ok (), s') := by
      rw [Call.run, NameCall.run, Fs.bind_eq, hrun]
      rfl
    have hcall := ShowsTree.call (s := s.passed k) hshows
      (.naming (.create dir name c_time permission target_path dev)) hmay.allowed uid gid
    rw [Call.seen, hreply] at hcall
    refine ⟨attr, s', hrun, hino, ?_⟩
    rw [hino]
    exact hcall.answers

end sessions

/-! ## Two sessions -/

section sample

attribute [local instance] sli512_features

theorem first_mount : TreeSession (.mounted fuse_root (new_fs 0 0 .default)) root_tree := by
  have hblank : Blank empty_db := fun n hn => by simp [Db.Has, Store.Has, empty_db] at hn
  have hok : (fuse_root.mount (start empty_db)).1 = .Ok () := by decide +kernel
  have hmount : fuse_root.mount (start empty_db) = (.Ok (), new_fs 0 0 .default) :=
    Prod.ext hok rfl
  exact .first hblank hmount

/-- The root of the first session is there for the other front end. -/
theorem rvfs_finds_the_root : ∃ s, Front.rvfs.mount (start first_session) = (.Ok (), s) ∧
    ∃ attr, dbfs_common_lookup 1 "." s = (.Ok attr, s) ∧ attr.ino = 1 := by
  have hok : (Front.rvfs.mount (start first_session)).1 = .Ok () := by decide +kernel
  have hmount : Front.rvfs.mount (start first_session) =
      (.Ok (), (Front.rvfs.mount (start first_session)).2) := Prod.ext hok rfl
  have hanswers := ((sessions_keep_the_tree first_mount).2 first_session (by
    rw [first_session]
    exact List.mem_cons_self)).1 .rvfs _ hmount
  obtain ⟨attr, hlookup, htree⟩ := hanswers.found 1 1 "." (by simp [root_tree, dot])
  exact ⟨_, hmount, attr, hlookup, htree.ino⟩

/-- In a second FUSE session the first create is refused, the next one makes inode 2. -/
theorem the_second_create_goes_through :
    (dbfs_common_create 1 "f" 0 0 .default (DbfsPermission.S_IFREG ||| 0o644) none none
      (fuse_root.mount (start first_session)).2).1 = .Err .FileExists ∧
    ∃ attr s', dbfs_common_create 1 "f" 0 0 .default (DbfsPermission.S_IFREG ||| 0o644) none none
      ((dbfs_common_create 1 "f" 0 0 .default (DbfsPermission.S_IFREG ||| 0o644) none none).made 1
        (fuse_root.mount (start first_session)).2) = (.Ok attr, s') ∧ attr.ino = 2 := by
  have hok : (fuse_root.mount (start first_session)).1 = .Ok () := by decide +kernel
  have hmount : fuse_root.mount (start first_session) =
      (.Ok (), (fuse_root.mount (start first_session)).2) := Prod.ext hok rfl
  have hnumber : (fuse_root.mount (start first_session)).2.DBFS_INODE_NUMBER = 1 := by
    decide +kernel
  have hgrants : (fuse_root.mount (start first_session)).2.db.Grants 1 0 0 :=
    ⟨0, 0, permission_from_mode .S_DIR, by decide +kernel, by decide +kernel, by decide +kernel,
      by decide⟩
  have hmay : MayCreate (fuse_root.mount (start first_session)).2.db root_tree 1 "f" 0 0 .default
      (DbfsPermission.S_IFREG ||| 0o644) none none := ⟨make_f_allowed, hgrants, by decide⟩
  have hrun := create_goes_through (first_mount.unmount.mounts hmount) hmay 1
  rw [hnumber] at hrun
  obtain ⟨hrefused, attr, s', hcreate, hino, _⟩ := hrun
    (fun i hi => by simp [Nat.lt_one_iff.mp hi, root_tree]) (by simp [root_tree])
  exact ⟨hrefused 0 Nat.one_pos, attr, s', hcreate, hino⟩

end sample

end dbfs2
