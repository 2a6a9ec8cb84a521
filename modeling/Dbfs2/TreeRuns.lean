-- Runs of calls on a tree of files. Whatever calls come one after another, the database shows
-- the tree that their replies tell, and every lookup, every attribute and every read from the
-- start of a slice answers from this tree.
import Dbfs2.FileTree

namespace dbfs2

open common Tx inode attr file

/-! ## Naming calls -/

section naming

variable [Features] {db db' : Db} {s s' : Sys} {t : FileTree} {uid gid : UInt32} {number : UInt64}
  {call : NameCall}

theorem ShowsTree.isDir (h : ShowsTree db t) {n : UInt64} : n ∈ t.names.dir ↔ db.IsDir n := by
  rw [← h.graph]
  rfl

theorem ShowsTree.entry (h : ShowsTree db t) {n : UInt64} (hn : db.IsDir n) (name : String) :
    t.names.edge n (generate_data_key name) = db.entry n name := by
  rw [← h.graph, Db.graph_edge hn (by simp)]
  rfl

omit [Features] in
theorem Names.get_free (h : Names db) {n : UInt64} (hn : db.IsDir n) {name : String}
    (he : db.graph.edge n (generate_data_key name) = none) :
    db.get n (generate_data_key name) = none := by
  rw [Db.graph_edge hn (by simp)] at he
  exact Names.get_absent (s := ⟨db, 0, ∅⟩) h hn he

theorem ShowsTree.free (h : ShowsTree db t) {n : UInt64} (hn : db.IsDir n) {name : String}
    (he : t.names.edge n (generate_data_key name) = none) :
    db.get n (generate_data_key name) = none := by
  rw [← h.graph] at he
  exact h.names.get_free hn he

theorem ShowsTree.size_eq (h : ShowsTree db t) {n : UInt64} (hn : db.IsDir n) {x : Nat}
    (hx : db.usize n .size = some x) : t.names.size n = x := by
  rw [← h.graph]
  exact Option.some.inj ((h.names.size n hn).symm.trans hx)

theorem ShowsTree.mayGrow (h : ShowsTree db t) {n : UInt64} (hn : db.IsDir n)
    (hsize : t.names.size n + 1 ≤ MAX_SIZE) : db.MayGrow MAX_SIZE n := by
  intro size hs _
  rw [h.size_eq hn hs] at hsize
  exact hsize

/-- What the tree allows is what the kernel may call for, with room for it. -/
theorem ShowsTree.allowed (h : ShowsTree db t) (hc : call.Allowed t.names) :
    call.Vfs db ∧ (Call.naming call).Sound db := by
  cases call with
  | create dir name c_time permission target_path dev =>
    obtain ⟨hdir, h1, h2, hfree, hsize, ty, hty, hrest⟩ := hc
    have hd := h.isDir.mp hdir
    exact ⟨⟨hd, h1, h2, h.free hd hfree, ty, hty⟩, h.mayGrow hd hsize, ty, hty, hrest⟩
  | link ino new_ino name ctime =>
    obtain ⟨hdir, hino, h1, h2, hfree, hsize⟩ := hc
    have hd := h.isDir.mp hdir
    exact ⟨⟨hd, fun e => hino (h.isDir.mpr e), h1, h2, h.free hd hfree⟩, h.mayGrow hd hsize⟩
  | unlink dir name c_time =>
    obtain ⟨hdir, h1, h2, htarget⟩ := hc
    have hd := h.isDir.mp hdir
    exact ⟨⟨hd, h1, h2, fun i hi e => htarget i ((h.entry hd name).trans hi) (h.isDir.mpr e)⟩,
      trivial⟩
  | rmdir p_ino name c_time =>
    obtain ⟨hdir, h1, h2, htarget⟩ := hc
    have hd := h.isDir.mp hdir
    exact ⟨⟨hd, h1, h2, fun i hi => h.isDir.mp (htarget i ((h.entry hd name).trans hi))⟩, trivial⟩
  | rename old_dir old_name new_dir new_name flags ctime =>
    obtain ⟨hod, hnd, h1, h2, h3, h4, hfree, hsize, hflags⟩ := hc
    have hd := h.isDir.mp hnd
    exact ⟨⟨h.isDir.mp hod, hd, h1, h2, h3, h4, h.free hd hfree, hflags⟩, h.mayGrow hd hsize⟩

/-- The directories that a call gets. -/
def inode.NameCall.dirs : NameCall → List UInt64
  | create dir .. => [dir]
  | link _ new_ino .. => [new_ino]
  | unlink dir .. => [dir]
  | rmdir p_ino .. => [p_ino]
  | rename old_dir _ new_dir .. => [old_dir, new_dir]

omit [Features] in
theorem inode.NameCall.Vfs.dirs (hvfs : call.Vfs db) {n : UInt64} (hn : n ∈ call.dirs) :
    db.IsDir n := by
  cases call with
  | rename old_dir old_name new_dir new_name flags ctime =>
    rcases List.mem_cons.mp hn with rfl | hn
    · exact hvfs.1
    · obtain rfl := List.mem_singleton.mp hn
      exact hvfs.2.1
  | _ =>
    obtain rfl := List.mem_singleton.mp hn
    exact hvfs.1

/-- A naming call leaves what it does not get: of an inode other than its directories only the
link count, the time of change and the parent entry may change. -/
theorem inode.NameCall.Commits.get (hvfs : call.Vfs db)
    (hc : call.Commits uid gid number db db') {n : UInt64} (hn : db.Has n) (hn' : db'.Has n)
    (hd : n ∉ call.dirs) {k : Bytes} (hparent : k ≠ dotdot) (hlinks : k ≠ Field.hard_links.key)
    (hctime : k ≠ Field.ctime.key) : db'.get n k = db.get n k := by
  cases call with
  | create dir name t permission target_path dev =>
    obtain ⟨_, htx⟩ := hc
    obtain ⟨_, _, _, _, _, _, _, _, hnew⟩ := create_tx_spec htx
    obtain ⟨hfresh, _, _, hget, _⟩ := new_inode_tx_spec hnew
    have hne : n ≠ dir := List.ne_of_not_mem_cons hd
    have hnumber : n ≠ number := by
      rintro rfl
      exact hfresh (by simpa [create_entry] using hn)
    rw [hget n k hnumber]
    simp [create_entry, hne]
  | link ino new_ino name t =>
    obtain ⟨_, _, _, _, _, _, _, rfl⟩ := link_tx_spec hc
    have hne : n ≠ new_ino := List.ne_of_not_mem_cons hd
    simp [hne, hlinks, hctime]
  | unlink dir name t =>
    obtain ⟨_, i, _, _, hi, _, _, _, _, hend⟩ := unlink_tx_spec hc
    have hne : n ≠ dir := List.ne_of_not_mem_cons hd
    rcases hend with ⟨_, rfl⟩ | ⟨_, _, rfl⟩
    · have hni : n ≠ i := by
        rintro rfl
        simp at hn'
      simp [hne, hni]
    · simp [hne, hlinks, hctime]
  | rmdir dir name t =>
    obtain ⟨_, i, _, _, _, _, _, _, _, _, rfl⟩ := rmdir_tx_spec hc
    have hne : n ≠ dir := List.ne_of_not_mem_cons hd
    have hni : n ≠ i := by
      rintro rfl
      simp at hn'
    simp [hne, hni]
  | rename old_dir old_name new_dir new_name flags t =>
    obtain ⟨old, new, _, ⟨_, hnew⟩, htx⟩ := hc
    obtain ⟨_, _, _, _, _, _, rfl⟩ :=
      rename_move_tx_spec (rename_new_free hnew hvfs.2.2.2.2.2.2.1) htx
    have hno : n ≠ old_dir := List.ne_of_not_mem_cons hd
    have hnn : n ≠ new_dir := List.ne_of_not_mem_cons (List.not_mem_of_not_mem_cons hd)
    have hk : k ≠ generate_data_key ".." := hparent
    simp [rename_moved, Db.get_put_if, hno, hnn, hk, hctime]

/-- Only create makes an inode. -/
theorem inode.NameCall.Commits.has (hc : call.Commits uid gid number db db') (hvfs : call.Vfs db)
    {n : UInt64} (hn' : db'.Has n) (hn : ¬ db.Has n) :
    n = number ∧ ∃ dir name t permission target_path dev,
      call = .create dir name t permission target_path dev := by
  cases call with
  | create dir name t permission target_path dev =>
    obtain ⟨_, htx⟩ := hc
    obtain ⟨_, _, _, _, _, _, _, _, hnew⟩ := create_tx_spec htx
    obtain ⟨_, _, hhas, _⟩ := new_inode_tx_spec hnew
    rcases (hhas n).mp hn' with rfl | hold
    · exact ⟨rfl, _, _, _, _, _, _, rfl⟩
    · exact absurd (by simpa [create_entry] using hold) hn
  | link ino new_ino name t =>
    obtain ⟨_, _, _, _, _, _, _, rfl⟩ := link_tx_spec hc
    exact absurd (by simpa using hn') hn
  | unlink dir name t =>
    obtain ⟨_, i, _, _, hi, _, _, _, _, ⟨_, rfl⟩ | ⟨_, _, rfl⟩⟩ := unlink_tx_spec hc
    · simp at hn'
      exact absurd hn'.2 hn
    · exact absurd (by simpa using hn') hn
  | rmdir dir name t =>
    obtain ⟨_, i, _, _, _, _, _, _, _, _, rfl⟩ := rmdir_tx_spec hc
    simp at hn'
    exact absurd hn'.2 hn
  | rename old_dir old_name new_dir new_name flags t =>
    obtain ⟨_, _, _, _, _, _, hfree, _⟩ := hvfs
    obtain ⟨old, new, _, ⟨_, hnew⟩, htx⟩ := hc
    obtain ⟨_, _, _, _, _, _, rfl⟩ := rename_move_tx_spec (rename_new_free hnew hfree) htx
    exact absurd (by simpa [rename_moved] using hn') hn

/-- A create whose transaction ran gives the attributes of the new number. -/
theorem create_of_tx {dir : UInt64} {name : String} {c_time : DbfsTimeSpec}
    {permission : DbfsPermission} {target_path : Option String} {dev : Option UInt32}
    {ty : DbfsFileType} {r : UInt32 × DbfsPermission × UInt32 × Nat × Option UInt32}
    (hty : permission &&& DbfsPermission.S_IFMT = ty.bits)
    (htx : create_tx s.DBFS_INODE_NUMBER dir name uid gid c_time permission target_path dev s.db =
      .Ok (r, db')) :
    ∃ attr, attr.ino = s.DBFS_INODE_NUMBER ∧
      dbfs_common_create dir name uid gid c_time permission target_path dev s =
        (.Ok attr, { s with db := db', DBFS_INODE_NUMBER := s.DBFS_INODE_NUMBER + 1 }) := by
  unfold dbfs_common_create
  change ∃ attr, _ ∧ (Fs.write (create_tx s.DBFS_INODE_NUMBER dir name uid gid c_time permission
    target_path dev) >>= _) { s with DBFS_INODE_NUMBER := s.DBFS_INODE_NUMBER + 1 } = _
  rw [Fs.bind_write]
  simp only [htx, DbfsFileType.from_bits hty]
  exact ⟨_, rfl, rfl⟩

/-- The bytes of an inode that was there are no new ones. -/
theorem inode.NameCall.Commits.fill_eq (hvfs : call.Vfs db)
    (hc : call.Commits uid gid number db db') (bytes : UInt64 → Option Bytes) {n : UInt64}
    (hn : db.Has n) : call.fill number bytes n = bytes n := by
  cases call with
  | create dir name c_time permission target_path dev =>
    obtain ⟨hdir, _, _, _, ty, hty⟩ := hvfs
    obtain ⟨r, htx⟩ := hc
    have hne : n ≠ number := by
      rintro rfl
      exact (create_created hty htx (Db.has_of_isDir hdir)).fresh hn
    rw [NameCall.fill]
    split_ifs
    · rw [Function.update_of_ne hne]
    · rfl
  | _ => rfl

/-- A new inode is an empty file where the tree says so. -/
theorem create_filled {dir : UInt64} {name : String} {c_time : DbfsTimeSpec}
    {permission : DbfsPermission} {target_path : Option String} {dev : Option UInt32}
    {ty : DbfsFileType} {r : UInt32 × DbfsPermission × UInt32 × Nat × Option UInt32}
    (hty : permission &&& DbfsPermission.S_IFMT = ty.bits) (hdir : db.Has dir)
    (htx : create_tx number dir name uid gid c_time permission target_path dev db = .Ok (r, db'))
    (bytes : UInt64 → Option Bytes) (hbytes : bytes number = none) :
    ((NameCall.create dir name c_time permission target_path dev).fill number bytes number =
        some [] ∧ db'.kind number = some .RegularFile ∧ Holds db' number []) ∨
      ((NameCall.create dir name c_time permission target_path dev).fill number bytes number =
        none ∧ db'.kind number ≠ some .RegularFile) := by
  have hkind := (create_created hty htx hdir).new_kind
  by_cases hreg : ty = .RegularFile
  · subst hreg
    obtain ⟨attr, _, hrun⟩ := create_of_tx (s := ⟨db, number, ∅⟩) hty htx
    have hfile := create_new_file hty hrun
    rw [(create_spec hrun).1] at hfile
    have hbits : permission &&& DbfsPermission.S_IFMT = DbfsPermission.S_IFREG := hty
    refine .inl ⟨?_, hkind, hfile.holds⟩
    rw [NameCall.fill, if_pos hbits, Function.update_self]
  · refine .inr ⟨?_, ?_⟩
    · rw [NameCall.fill, if_neg, hbytes]
      rw [hty]
      revert hreg
      cases ty <;> decide
    · rw [hkind]
      exact fun e => hreg (Option.some.inj e)

/-- What a naming call that ran does to the tree. -/
theorem ShowsTree.committed (h : ShowsTree db t) (hvfs : call.Vfs db)
    (hc : call.Commits uid gid number db db') (hnames : Names db') (hnamed : Named db')
    (hreadable : Readable db') (hkinds : ∀ n, db.Has n → db'.Has n → db'.kind n = db.kind n) :
    ShowsTree db' ((Call.naming call).on number t) := by
  have hgraph : db'.graph = call.on number t.names := by
    rw [hc.graph h.names hvfs, h.graph]
  have hnode : ∀ n, n ∈ (call.on number t.names).node ↔ db'.Has n := fun n => by
    rw [← hgraph]
    rfl
  -- the bytes that the tree has for an inode that is left are the ones of the database
  have hfile : ∀ n, db'.Has n →
      (∀ l, call.fill number t.bytes n = some l → db'.kind n = some .RegularFile ∧ Holds db' n l) ∧
      (call.fill number t.bytes n = none → db'.kind n ≠ some .RegularFile) := by
    intro n hn'
    by_cases hn : db.Has n
    · rw [hc.fill_eq hvfs t.bytes hn, hkinds n hn hn']
      refine ⟨fun l hl => ?_, h.rest n⟩
      obtain ⟨hreg, hholds⟩ := h.file n l hl
      have hd : n ∉ call.dirs := fun e => by cases hreg.symm.trans (hvfs.dirs e)
      refine ⟨hreg, hholds.congr fun k hk => ?_⟩
      rcases hk with rfl | hz
      · exact hc.get hvfs hn hn' hd (by decide) (by decide) (by decide)
      · refine hc.get hvfs hn hn' hd ?_ ?_ ?_
        · rintro rfl
          exact absurd hz (by decide)
        · rintro rfl
          exact field_not_slice _ hz
        · rintro rfl
          exact field_not_slice _ hz
    · obtain ⟨rfl, dir, name, c_time, permission, target_path, dev, rfl⟩ := hc.has hvfs hn' hn
      obtain ⟨hdir, _, _, _, ty, hty⟩ := hvfs
      obtain ⟨r, htx⟩ := hc
      have hbytes : t.bytes n = none := by
        rcases hl : t.bytes n with _ | l
        · rfl
        · exact absurd (Db.has_of_usize (h.file n l hl).2.dense.size_eq) hn
      rcases create_filled hty (Db.has_of_isDir hdir) htx t.bytes hbytes with
        ⟨hfill, hnew⟩ | ⟨hfill, hnew⟩
      · rw [hfill]
        refine ⟨fun l hl => ?_, fun hl => by cases hl⟩
        cases hl
        exact hnew
      · rw [hfill]
        exact ⟨fun l hl => (by cases hl), fun _ => hnew⟩
  refine ⟨hnames, hnamed, hreadable, hgraph, fun n l hl => ?_, fun n hl => ?_⟩
  · simp only [Call.on, FileTree.with_names] at hl
    split_ifs at hl with hn
    exact (hfile n ((hnode n).mp hn)).1 l hl
  · simp only [Call.on, FileTree.with_names] at hl
    split_ifs at hl with hn
    · exact (hfile n ((hnode n).mp hn)).2 hl
    · intro e
      obtain ⟨m, hm, _⟩ := Option.bind_eq_some_iff.mp e
      exact hn ((hnode n).mpr (Db.has_of_u16 hm))

end naming

/-! ## Every call -/

section calls

variable [Features] {s s' : Sys} {t : FileTree} {uid gid : UInt32}

omit [Features] in
/-- Link fails after its transaction only where the inode does not show its attributes. -/
theorem link_failed {ino new_ino : UInt64} {name : String} {ctime : DbfsTimeSpec}
    (h : ∀ db', link_tx ino new_ino name ctime s.db = .Ok ((), db') →
      ∃ attr, attr_tx ino db' = .Ok (attr, db')) :
    (dbfs_common_link uid gid ino new_ino name ctime s).2.db = s.db ∨
      ∃ attr, (dbfs_common_link uid gid ino new_ino name ctime s).1 = .Ok attr := by
  unfold dbfs_common_link dbfs_common_attr
  rw [Fs.map_err_read, Fs.bind_read]
  split
  · rw [Fs.bind_ensure]
    split_ifs
    · rw [Fs.bind_write]
      split
      · rename_i db' htx
        obtain ⟨attr, hattr⟩ := h db' htx
        refine .inr ⟨attr, ?_⟩
        rw [Fs.map_err_read, Fs.read, Tx.map_err_ok.mpr hattr]
      · exact .inl rfl
      · exact .inl rfl
    · exact .inl rfl
  · exact .inl rfl
  · exact .inl rfl

omit [Features] in
theorem rename_atomic (old_dir new_dir : UInt64) (old_name new_name : String) (flags : UInt32)
    (ctime : DbfsTimeSpec) :
    Fs.Atomic (dbfs_common_rename uid gid old_dir old_name new_dir new_name flags ctime) := by
  have hensure : ∀ (c : Bool) (e : DbfsError) (s : Sys), (Fs.ensure c e s).2 = s := by
    intro c e s
    cases c <;> rfl
  refine .after (Fs.read_state _) fun old => .after (Fs.read_state _) fun new => ?_
  split_ifs
  · rcases new.number with _ | number
    · exact fun s => .inl rfl
    · exact .write _
  · exact .after (hensure _ _) fun _ => .after (hensure _ _) fun _ => .write _

omit [Features] in
theorem Fs.Atomic.replied {x : Fs Unit} (h : x.Atomic) (s : Sys) :
    (x s).2.db = s.db ∨ (x s).1 = .Ok () := by
  rcases h s with he | ⟨_, hok⟩
  · exact .inl (congrArg Sys.db he)
  · exact .inr hok

/-- A naming call that fails changes no inode. -/
theorem naming_failed (h : Readable s.db) {call : NameCall} (hvfs : call.Vfs s.db)
    (hsound : (Call.naming call).Sound s.db) :
    (call.run uid gid s).2.db = s.db ∨ (call.run uid gid s).1 = .Ok () := by
  cases call with
  | create dir name c_time permission target_path dev =>
    obtain ⟨_, _, _, _, ty, hty⟩ := hvfs
    rw [NameCall.run, Fs.discard_state]
    rcases create_db dir permission target_path dev s with hdb | ⟨r, htx⟩
    · exact .inl hdb
    · obtain ⟨attr, _, hrun⟩ := create_of_tx hty htx
      right
      rw [Fs.bind_eq, hrun]
      rfl
  | link ino new_ino name ctime =>
    have hattr : ∀ db', link_tx ino new_ino name ctime s.db = .Ok ((), db') →
        ∃ attr, attr_tx ino db' = .Ok (attr, db') := by
      intro db' htx
      have hhas : db'.Has ino := by
        obtain ⟨_, _, hino, _, _, _, _, rfl⟩ := link_tx_spec htx
        simpa using hino
      obtain ⟨hlaid, hfits⟩ := h.changes (link_changes htx hsound) ino hhas
      exact hlaid.attr_iff.mpr hfits
    rw [NameCall.run, Fs.discard_state]
    refine (link_failed hattr).imp_right ?_
    rintro ⟨attr, hok⟩
    rw [Fs.bind_eq]
    rcases hrun : dbfs_common_link uid gid ino new_ino name ctime s with ⟨r, s'⟩
    rw [hrun] at hok
    cases hok
    rfl
  | unlink dir name c_time =>
    exact (Fs.Atomic.write _).replied s
  | rmdir p_ino name c_time =>
    exact (Fs.Atomic.write _).replied s
  | rename old_dir old_name new_dir new_name flags ctime =>
    exact (rename_atomic old_dir new_dir old_name new_name flags ctime).replied s

theorem ShowsTree.naming (h : ShowsTree s.db t) {call : NameCall} (hc : call.Allowed t.names)
    (hok : call.run uid gid s = (.Ok (), s')) :
    ShowsTree s'.db ((Call.naming call).on s.DBFS_INODE_NUMBER t) := by
  obtain ⟨hvfs, hsound⟩ := h.allowed hc
  have hlaid : ∀ n, s.db.Has n → Laid s.db n := fun n hn => (h.readable n hn).1
  have hs' : s' = (call.run uid gid s).2 := by rw [hok]
  have hcommits := ok_commits hvfs hok
  subst hs'
  refine h.committed hvfs hcommits (call_names h.names call uid gid s.DBFS_INODE_NUMBER
    s.GLOBAL_READDIR_TABLE hvfs).1 (naming_named h.named hlaid call uid gid)
    (call_readable h.readable (.naming call) hsound uid gid) fun n hn hn' => ?_
  exact kind_kept (hlaid n hn) (call_kept (links_of_laid hlaid) h.readable.fits (.naming call)
    hsound.fits uid gid hn hn')

omit [Features] in
/-- Given the number, unlink does what it does when it looks the number up. -/
theorem unlink_ino_tx {dir ino : UInt64} {name : String} {c_time : DbfsTimeSpec} {db db' : Db}
    {u : Unit} (hentry : db.entry dir name = some ino)
    (h : unlink_tx uid gid dir name (some ino) c_time db = .Ok (u, db')) :
    unlink_tx uid gid dir name none c_time db = .Ok (u, db') := by
  obtain ⟨value, hvalue, hparse⟩ := Option.bind_eq_some_iff.mp hentry
  have hparse' : parse_ino value = some ino := hparse
  simp [unlink_tx, hvalue, hparse'] at h ⊢
  exact h

theorem ShowsTree.unlink_ino (h : ShowsTree s.db t) {dir ino : UInt64} {name : String}
    {c_time : DbfsTimeSpec} (hc : (Call.unlink_ino dir name ino c_time).Allowed t)
    (hok : (Call.unlink_ino dir name ino c_time).run uid gid s = (.Ok (), s')) :
    ShowsTree s'.db ((Call.unlink_ino dir name ino c_time).on s.DBFS_INODE_NUMBER t) := by
  obtain ⟨hdir, h1, h2, hentry, hleaf⟩ := hc
  obtain ⟨db', htx, rfl⟩ := Fs.write_ok.mp hok
  rw [h.entry (h.isDir.mp hdir)] at hentry
  have hallowed : (NameCall.unlink dir name c_time).Allowed t.names := by
    refine ⟨hdir, h1, h2, fun i hi => ?_⟩
    rw [h.entry (h.isDir.mp hdir), hentry] at hi
    cases hi
    exact hleaf
  exact h.naming hallowed (Fs.write_ok.mpr ⟨db', unlink_ino_tx hentry htx, rfl⟩)

/-- What slices can hold has a size that the attributes can show. -/
theorem le_max_size {size : Nat} (h : size < (2 ^ 32 - 1) * SLICE_SIZE) : size ≤ MAX_SIZE := by
  have hS := SLICE_SIZE_le
  unfold MAX_SIZE
  omega

theorem ShowsTree.write (uid gid : UInt32) (h : ShowsTree s.db t) {ino : UInt64} {buf : Bytes}
    {offset : Nat} {scratch : Scratch} (hc : (Call.write ino buf offset scratch).Allowed t) :
    ∃ s', (Call.write ino buf offset scratch).run uid gid s = (.Ok (), s') ∧
      ShowsTree s'.db ((Call.write ino buf offset scratch).on s.DBFS_INODE_NUMBER t) := by
  obtain ⟨l, hl, hbuf, hoff, hmax⟩ := hc
  obtain ⟨db', htx, hholds⟩ := (h.file ino l hl).2.write scratch hbuf hoff hmax
  have hrun : (Call.write ino buf offset scratch).run uid gid s =
      (.Ok (), { s with db := db' }) := by
    rw [Call.run, dbfs_common_write, Fs.bind_write, htx]
    rfl
  have hsound : (Call.write ino buf offset scratch).Sound s.db := by
    rw [Slices.length_overlay hoff] at hmax
    exact fun _ => Nat.le_trans (Nat.le_max_right ..) (le_max_size hmax)
  refine ⟨_, hrun, ?_⟩
  have htree := h.content uid gid (n := ino)
    (f := (Slices.overlay · offset buf)) _ hsound hl
  rw [hrun] at htree
  exact htree (write_tx_only htx).1.only hholds

theorem ShowsTree.truncate (h : ShowsTree s.db t) {ino : UInt64} {ctime : DbfsTimeSpec}
    {f_size : UInt64} (hc : (Call.truncate ino ctime f_size).Allowed t)
    (hok : (Call.truncate ino ctime f_size).run uid gid s = (.Ok (), s')) :
    ShowsTree s'.db ((Call.truncate ino ctime f_size).on s.DBFS_INODE_NUMBER t) := by
  obtain ⟨l, hl, hle⟩ := hc
  have hholds := (h.file ino l hl).2
  have hrun := hok
  simp only [Call.run, dbfs_common_truncate, Fs.bind_ok, Fs.write_ok, Fs.pure_ok] at hok
  obtain ⟨a, _, ⟨attr, _, hattr, db', htx, rfl⟩, _, rfl⟩ := hok
  obtain ⟨rfl, hsize⟩ := truncate_attr_ok hattr
  have hlen : attr.size = l.length := Option.some.inj (hsize.symm.trans hholds.dense.size_eq)
  obtain ⟨honly, hnew, _⟩ := truncate_tx_only htx
  have hbound := hholds.dense.bound
  have hslices := truncate_tx_slices hholds.whole (by omega) htx
  rw [hlen] at hslices
  have htree := h.content uid gid (n := ino) (f := (·.take f_size.toNat))
    (Call.truncate ino ctime f_size) (Nat.le_trans hle (le_max_size hbound)) hl
  rw [hrun] at htree
  exact htree (truncate_only htx) (hholds.cut hle hnew hslices (honly.sliceKeys hholds.dense.keys))

/-- Fallocate within its limits leaves the bytes of the file. -/
theorem ShowsTree.fallocate (h : ShowsTree s.db t) {ino : UInt64} {offset size : Nat}
    {mode : UInt32} {ctime : DbfsTimeSpec}
    (hc : (Call.fallocate ino offset size mode ctime).Allowed t) :
    ShowsTree ((Call.fallocate ino offset size mode ctime).run uid gid s).2.db t := by
  obtain ⟨l, hl, hend⟩ := hc
  have hholds := (h.file ino l hl).2
  rcases Fs.write_state (fallocate_tx uid gid ino offset size mode ctime) s with
    he | ⟨_, db', htx, he⟩
  · rw [Call.run, dbfs_common_fallocate, he]
    exact h
  · obtain ⟨honly, hslices, i_size, hi, hsize, _⟩ := fallocate_tx_only htx
    cases hi.symm.trans hholds.dense.size_eq
    have hsame : db'.usize ino .size = s.db.usize ino .size := by
      rw [hsize, hi]
      split_ifs with hkeep
      · rw [Nat.max_eq_left (hend hkeep)]
      · rfl
    have hsound : (Call.fallocate ino offset size mode ctime).Sound s.db := fun hkeep _ =>
      Nat.le_trans (hend hkeep) (le_max_size hholds.dense.bound)
    have htree := h.content uid gid (n := ino) (f := id) _ hsound hl
    rw [Call.run, dbfs_common_fallocate, he, t.edit_id] at htree
    rw [Call.run, dbfs_common_fallocate, he]
    exact htree (fallocate_only htx)
      (hholds.of_slices hsame hslices (honly.sliceKeys hholds.dense.keys))

/-- What a call leaves behind. -/
noncomputable def Call.seen (uid gid : UInt32) (s : Sys) (t : FileTree) (c : Call) : FileTree :=
  match (c.run uid gid s).1 with
  | .Ok _ => c.on s.DBFS_INODE_NUMBER t
  | _ => t

theorem Call.seen_of_on {c : Call} (h : c.on s.DBFS_INODE_NUMBER t = t) :
    c.seen uid gid s t = t := by
  unfold Call.seen
  split
  · exact h
  · rfl

/-- The step: a call changes what the database shows as its reply says. -/
theorem ShowsTree.call (h : ShowsTree s.db t) (c : Call) (hc : c.Allowed t) (uid gid : UInt32) :
    ShowsTree (c.run uid gid s).2.db (c.seen uid gid s t) := by
  have hreplied : (∀ s', c.run uid gid s = (.Ok (), s') →
      ShowsTree s'.db (c.on s.DBFS_INODE_NUMBER t)) →
      ((c.run uid gid s).2.db = s.db ∨ (c.run uid gid s).1 = .Ok ()) →
      ShowsTree (c.run uid gid s).2.db (c.seen uid gid s t) := by
    intro hok hfailed
    unfold Call.seen
    rcases hrun : c.run uid gid s with ⟨r, s'⟩
    rw [hrun] at hfailed
    rcases r with _ | e | _
    · exact hok s' hrun
    · rw [hfailed.resolve_right (by simp)]
      exact h
    · rw [hfailed.resolve_right (by simp)]
      exact h
  cases c with
  | naming call =>
    obtain ⟨hvfs, hsound⟩ := h.allowed hc
    exact hreplied (fun s' hok => h.naming hc hok) (naming_failed h.readable hvfs hsound)
  | unlink_ino dir name ino c_time =>
    exact hreplied (fun s' hok => h.unlink_ino hc hok)
      ((Fs.Atomic.write _).replied s)
  | write ino buf offset scratch =>
    obtain ⟨s', hrun, htree⟩ := h.write uid gid hc
    refine hreplied (fun s'' hok => ?_) (.inr (by rw [hrun]))
    cases hrun.symm.trans hok
    exact htree
  | truncate ino ctime f_size =>
    refine hreplied (fun s' hok => h.truncate hc hok) ?_
    have hatomic : Fs.Atomic ((Call.truncate ino ctime f_size).run uid gid) :=
      .discard (.after (truncate_attr_state uid gid ino) fun _ => .write _)
    exact hatomic.replied s
  | fallocate ino offset size mode ctime =>
    rw [Call.seen_of_on rfl]
    exact h.fallocate hc
  | setxattr ino key value ctime =>
    rw [Call.seen_of_on rfl]
    refine h.attributes (n := ino) _ trivial ?_
    rcases Fs.write_state (setxattr_tx uid gid ino key value ctime) s with he | ⟨_, db', htx, he⟩
    · rw [Call.run, dbfs_common_setxattr, he]
      exact .refl ..
    · rw [Call.run, dbfs_common_setxattr, he]
      obtain ⟨hmay, rfl⟩ := setxattr_tx_iff.mp htx
      exact set_xattr_only (mayXattr_isXattr hmay) value ctime
  | removexattr ino key ctime =>
    rw [Call.seen_of_on rfl, Call.run, dbfs_common_removexattr, Fs.dropped, Fs.read_state]
    exact h
  | chmod ino mode ctime =>
    rw [Call.seen_of_on rfl]
    refine h.attributes (n := ino) _ trivial ?_
    rw [Call.run, Fs.discard_state]
    rcases chmod_state mode ctime with he | ⟨attr, _, _, _, he⟩
    · rw [he]
      exact .refl ..
    · rw [he]
      exact chmodded_only _ ctime
  | chown ino uid' gid' c_time =>
    rw [Call.seen_of_on rfl]
    refine h.attributes (n := ino) _ trivial ?_
    rw [Call.run, Fs.discard_state]
    rcases chown_state uid' gid' c_time with he | ⟨attr, _, _, _, he⟩
    · rw [he]
      exact .refl ..
    · rw [he]
      exact chowned_only _ _ _ c_time
  | utimens ino atime mtime c_time =>
    rw [Call.seen_of_on rfl]
    refine h.attributes (n := ino) _ trivial ?_
    rw [Call.run, Fs.discard_state]
    rcases utimens_state atime mtime c_time with he | ⟨db', htx, he⟩
    · rw [he]
      exact .refl ..
    · rw [he]
      exact utimens_only htx

end calls

/-! ## Runs -/

/-- The tree of a new file system: a root that names itself. -/
def root_tree : FileTree where
  names := ⟨{1}, {1}, fun n k => if n = 1 ∧ k = dot then some 1 else none⟩
  bytes _ := none

section runs

variable [Features]

theorem root_shows (super_blk : Bucket) (uid gid : UInt32) (ctime : DbfsTimeSpec) :
    ShowsTree (root_db super_blk uid gid ctime) root_tree where
  names := (root_db_names super_blk uid gid ctime).1
  named :=
    have hrun : NameRun (fun _ => True) (root_db super_blk uid gid ctime) :=
      ⟨super_blk, uid, gid, ctime, .refl⟩
    hrun.laid.2
  readable n hn := by
    obtain rfl := (root_db_has super_blk uid gid ctime n).mp hn
    rw [root_db_eq]
    exact root_laid
  graph := by
    refine graph_ext (root_db_has super_blk uid gid ctime) (root_db_isDir super_blk uid gid ctime)
      (fun n k hn hk => ?_) fun n k i he => ?_
    · rw [← Db.graph_edge hn hk, root_db_edge]
      rfl
    · have he : (root_db super_blk uid gid ctime).graph.edge n k = some i := by
        rw [root_db_edge]
        exact he
      obtain ⟨hn, hk, _⟩ := Db.graph_edge_some he
      exact ⟨hn, hk⟩
  file n l hl := by cases hl
  rest n _ e := by
    obtain ⟨m, hm, _⟩ := Option.bind_eq_some_iff.mp e
    have hn := (root_db_has super_blk uid gid ctime n).mp (Db.has_of_u16 hm)
    have hdir := (root_db_isDir super_blk uid gid ctime n).mpr hn
    cases hdir.symm.trans e

/-- The runs of calls on a new file system, each with the tree that its replies tell. The counter
and the table of listings may be anything at any time, and `ok` may narrow the calls. -/
inductive TreeRun (ok : FileTree → Call → Prop) : Sys → FileTree → Prop
  | root (super_blk : Bucket) (uid gid : UInt32) (ctime : DbfsTimeSpec) (number : UInt64)
      (table : OrdMap UInt64 ReadDirInfo) :
      TreeRun ok ⟨root_db super_blk uid gid ctime, number, table⟩ root_tree
  | call {s : Sys} {t : FileTree} (c : Call) (uid gid : UInt32) : TreeRun ok s t → c.Allowed t →
      ok t c → TreeRun ok (c.run uid gid s).2 (c.seen uid gid s t)
  | statics {s : Sys} {t : FileTree} (number : UInt64) (table : OrdMap UInt64 ReadDirInfo) :
      TreeRun ok s t → TreeRun ok ⟨s.db, number, table⟩ t

variable {ok : FileTree → Call → Prop} {s : Sys} {t : FileTree}

theorem TreeRun.shows (h : TreeRun ok s t) : ShowsTree s.db t := by
  induction h with
  | root super_blk uid gid ctime =>
    dsimp only
    exact root_shows super_blk uid gid ctime
  | call c uid gid _ hc _ ih => exact ih.call c hc uid gid
  | statics _ _ _ ih => exact ih

/-! ## Replies -/

omit [Features] in
theorem lookup_state (dir : UInt64) (name : String) (s : Sys) :
    (dbfs_common_lookup dir name s).2 = s := by
  unfold dbfs_common_lookup dbfs_common_attr
  rw [Fs.bind_read]
  split
  · exact Fs.read_state ..
  · rfl
  · rfl

/-- A reply shows what the tree has of an inode: its number, kind, size and link count. -/
structure TreeInode (t : FileTree) (n ino : UInt64) (kind : DbfsFileType) (size : Nat)
    (nlink : UInt32) : Prop where
  ino : ino = n
  dir : kind = .Directory ↔ n ∈ t.names.dir
  file : kind = .RegularFile ↔ ∃ l, t.bytes n = some l
  entries : n ∈ t.names.dir → size = t.names.size n
  length (l : Bytes) : t.bytes n = some l → size = l.length
  links : n ∉ t.names.dir → nlink.toNat = t.names.refs n

/-- The attributes of an inode show what the tree has of it. -/
def TreeAttr (t : FileTree) (n : UInt64) (attr : DbfsAttr) : Prop :=
  TreeInode t n attr.ino attr.kind attr.size attr.nlink

theorem ShowsTree.attr (h : ShowsTree s.db t) {n : UInt64} (hn : s.db.Has n) :
    ∃ attr, dbfs_common_attr n s = (.Ok attr, s) ∧ TreeAttr t n attr := by
  obtain ⟨hlaid, hfits⟩ := h.readable n hn
  obtain ⟨attr, hattr⟩ := hlaid.attr_iff.mpr hfits
  have hshows := (attr_tx_iff.mp hattr).1
  have hkind : ∀ ty, attr.kind = ty ↔ s.db.kind n = some ty := fun ty => by
    rw [Db.kind, hshows.mode, Option.bind_some, hshows.kind, Option.some_inj]
  refine ⟨attr, Fs.read_ok.mpr ⟨⟨_, hattr⟩, rfl⟩, hshows.rest.1, ?_, ⟨fun hreg => ?_, ?_⟩,
    fun hd => ?_, fun l hl => ?_, fun hd => ?_⟩
  · rw [hkind, h.isDir]
    rfl
  · rcases hl : t.bytes n with _ | l
    · exact absurd ((hkind _).mp hreg) (h.rest n hl)
    · exact ⟨l, rfl⟩
  · rintro ⟨l, hl⟩
    exact (hkind _).mpr (h.file n l hl).1
  · rw [← h.graph]
    exact Option.some.inj (hshows.size.symm.trans (h.names.size n (h.isDir.mp hd)))
  · exact Option.some.inj (hshows.size.symm.trans (h.file n l hl).2.dense.size_eq)
  · obtain ⟨links, hlinks, hcount⟩ := h.names.links n hn fun e => hd (h.isDir.mpr e)
    cases hshows.hard_links.symm.trans hlinks
    rw [← h.graph]
    exact hcount

theorem ShowsTree.node (h : ShowsTree s.db t) {n : UInt64} : n ∈ t.names.node ↔ s.db.Has n := by
  rw [← h.graph]
  rfl

theorem ShowsTree.lookup (h : ShowsTree s.db t) {dir i : UInt64} {name : String}
    (he : t.names.edge dir (generate_data_key name) = some i) :
    ∃ attr, dbfs_common_lookup dir name s = (.Ok attr, s) ∧ TreeAttr t i attr := by
  rw [← h.graph] at he
  obtain ⟨hd, _, hentry⟩ := Db.graph_edge_some he
  obtain ⟨attr, hattr, htree⟩ := h.attr (h.names.wf.target he)
  obtain ⟨⟨db', htx⟩, _⟩ := Fs.read_ok.mp hattr
  rw [(attr_tx_iff.mp htx).2] at htx
  exact ⟨attr, Prod.ext (lookup_ok.mpr ⟨i, hentry, htx⟩) (lookup_state dir name s), htree⟩

theorem ShowsTree.lookup_free (h : ShowsTree s.db t) {dir : UInt64} {name : String}
    (hdir : dir ∈ t.names.dir) (he : t.names.edge dir (generate_data_key name) = none) :
    dbfs_common_lookup dir name s = (.Err .NotFound, s) := by
  have hd := h.isDir.mp hdir
  exact lookup_absent (Db.has_of_isDir hd) (h.free hd he)

/-- The replies of a state are those of a tree: a lookup finds what the directory names and nothing
else, the attributes show the counts of the names and the length of the file, and a read from the
start of a slice gives the bytes. -/
structure Answers (s : Sys) (t : FileTree) : Prop where
  attr (n : UInt64) : n ∈ t.names.node →
    ∃ attr, dbfs_common_attr n s = (.Ok attr, s) ∧ TreeAttr t n attr
  found (dir i : UInt64) (name : String) : t.names.edge dir (generate_data_key name) = some i →
    ∃ attr, dbfs_common_lookup dir name s = (.Ok attr, s) ∧ TreeAttr t i attr
  absent (dir : UInt64) (name : String) : dir ∈ t.names.dir →
    t.names.edge dir (generate_data_key name) = none →
    dbfs_common_lookup dir name s = (.Err .NotFound, s)
  read (n : UInt64) (l buf : Bytes) (offset : Nat) : t.bytes n = some l → buf.length < 2 ^ 63 →
    SLICE_SIZE ∣ offset → ∃ b,
      dbfs_common_read n buf offset s = (.Ok (((l.drop offset).take buf.length).length, b), s) ∧
      b.take ((l.drop offset).take buf.length).length = (l.drop offset).take buf.length

theorem ShowsTree.answers (h : ShowsTree s.db t) : Answers s t where
  attr n hn := h.attr (h.node.mp hn)
  found dir i name he := h.lookup he
  absent dir name hdir he := h.lookup_free hdir he
  read n l buf offset hl hbuf hoff := by
    obtain ⟨b, hread, hbytes⟩ := (h.file n l hl).2.read hbuf hoff
    exact ⟨b, Fs.read_ok.mpr ⟨⟨_, hread⟩, rfl⟩, hbytes⟩

/-- Whatever the calls of a run, its replies are those of the tree that they tell. -/
theorem replies_show_the_tree (h : TreeRun ok s t) : Answers s t := h.shows.answers

end runs

/-! ## A file of three bytes -/

section sample

attribute [local instance] sli512_features

def make_f : Call :=
  .naming (.create 1 "f" .default (DbfsPermission.S_IFREG ||| 0o644) none none)

def write_f : Call := .write 2 [1, 2, 3] 0 (filled_with 7)

def new_system : Sys := ⟨root_db ∅ 0 0 .default, 2, ∅⟩

theorem make_f_allowed : make_f.Allowed root_tree := by
  refine ⟨rfl, by decide, by decide, ?_, ?_, .RegularFile, by decide, by decide, by simp⟩
  · have hne : generate_data_key "f" ≠ dot := by decide
    simp [root_tree, hne]
  · rw [(root_shows ∅ 0 0 .default).size_eq (by decide +kernel) (x := 1) (by decide +kernel)]
    decide

theorem make_f_bytes : (make_f.seen 0 0 new_system root_tree).bytes 2 = some [] := by
  have hok : (make_f.run 0 0 new_system).1 = .Ok () := by decide +kernel
  have hdir : (DbfsPermission.S_IFREG ||| 0o644) &&& DbfsPermission.S_IFMT ≠
      DbfsPermission.S_IFDIR := by decide
  have hreg : (DbfsPermission.S_IFREG ||| 0o644) &&& DbfsPermission.S_IFMT =
      DbfsPermission.S_IFREG := by decide
  rw [Call.seen, hok]
  refine (FileTree.with_names_bytes _ ?_).trans ?_
  · rw [NameCall.on, if_neg hdir]
    exact Set.mem_insert ..
  · rw [NameCall.fill, if_pos hreg]
    rfl

theorem a_file_of_three_bytes :
    ∃ s t, TreeRun (fun _ _ => True) s t ∧ t.bytes 2 = some [1, 2, 3] ∧
      ∃ b, dbfs_common_read 2 [0, 0, 0, 0] 0 s = (.Ok (3, b), s) ∧ b.take 3 = [1, 2, 3] := by
  have hrun : TreeRun (fun _ _ => True) _ _ := .call write_f 0 0
    (.call make_f 0 0 (.root ∅ 0 0 .default 2 ∅) make_f_allowed trivial)
    ⟨[], make_f_bytes, by decide, by decide, by decide⟩ trivial
  have hbytes : (write_f.seen 0 0 (make_f.run 0 0 new_system).2
      (make_f.seen 0 0 new_system root_tree)).bytes 2 = some [1, 2, 3] := by
    have hok : (write_f.run 0 0 (make_f.run 0 0 new_system).2).1 = .Ok () := by decide +kernel
    rw [Call.seen, hok]
    simp only [Call.on, write_f, FileTree.edit, Function.update_self, make_f_bytes]
    decide
  exact ⟨_, _, hrun, hbytes,
    (replies_show_the_tree hrun).read 2 _ [0, 0, 0, 0] 0 hbytes (by decide) (by decide)⟩

end sample

end dbfs2
