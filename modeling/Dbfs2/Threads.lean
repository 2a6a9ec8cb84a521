-- Naming calls of several threads. A call is a row of transactions, and those of other calls
-- may come in between. As long as calls that hold the same inode wait for each other, as the
-- kernel makes them, every state of every interleaving is one of calls made one after the other.
import Dbfs2.Creation
import Dbfs2.Replace
import Dbfs2.TreeRuns

namespace dbfs2

open common Tx inode

/-! ## The transactions of a call -/

/-- What a call has taken or read before it changes the database. -/
inductive CallPhase where
  | started
  | numbered (number : UInt64)
  | read_old (old : RenameOld)
  | read_both (old : RenameOld) (new : RenameNew)

section steps

variable [Features]

/-- The first step. Create takes a number, link checks the directory, and rename reads the entry it
moves; unlink and rmdir have one transaction only. -/
def inode.NameCall.enter (uid gid : UInt32) : NameCall → Fs CallPhase
  | create .. => do
    let number ← fetch_add
    pure (.numbered number)
  | link _ new_ino _ _ => do
    let attr ← Fs.map_err .NotFound (dbfs_common_attr new_ino)
    Fs.ensure (checkout_access attr.uid attr.gid (attr.perm &&& 0o777) uid gid 2) .AccessError
    pure .started
  | rename old_dir old_name .. => do
    let old ← Fs.read (rename_old_tx uid gid old_dir old_name)
    pure (.read_old old)
  | _ => pure .started

/-- The second step of a rename: what it would replace. -/
def inode.NameCall.look (uid gid : UInt32) : NameCall → CallPhase → Fs CallPhase
  | rename _ _ new_dir new_name _ _, .read_old old => do
    let new ← Fs.read (rename_new_tx uid gid new_dir new_name)
    pure (.read_both old new)
  | _, phase => pure phase

/-- The step that changes the database. -/
def inode.NameCall.commit (uid gid : UInt32) : NameCall → CallPhase → Fs Unit
  | create dir name c_time permission target_path dev, .numbered number => do
    let _ ← Fs.write (create_tx number dir name uid gid c_time permission target_path dev)
  | link ino new_ino name ctime, .started => Fs.write (link_tx ino new_ino name ctime)
  | unlink dir name c_time, .started => dbfs_common_unlink uid gid dir name none c_time
  | rmdir p_ino name c_time, .started => dbfs_common_rmdir uid gid p_ino name c_time
  | rename old_dir old_name new_dir new_name flags ctime, .read_both old new =>
    if flags &&& RENAME_EXCHANGE ≠ 0 then
      match new.number with
      | none => Fs.fail .NotFound
      | some new_number =>
        Fs.write (rename_exchange_tx old_dir old_name new_dir new_name old new_number new.perm
          ctime)
    else do
      Fs.ensure (!(new.number.isSome && new.perm.contains DbfsPermission.S_IFDIR
        && decide (2 < new.size))) .NotEmpty
      Fs.ensure (!(old.perm.contains DbfsPermission.S_IFDIR && old_dir != new_dir
        && !checkout_access old.uid old.gid (old.perm &&& 0o777) uid gid ACCESS_W_OK))
        .AccessError
      Fs.write (rename_move_tx old_dir old_name new_dir new_name old new ctime)
  | _, _ => pure ()

/-- What comes after: create names the type of the new inode, and link reads the attributes. -/
def inode.NameCall.leave : NameCall → Fs Unit
  | create _ _ _ permission _ _ => do
    let _ ← Fs.unwrap (DbfsFileType.from permission)
  | link ino .. => do
    let _ ← Fs.map_err .NotFound (dbfs_common_attr ino)
  | _ => pure ()

/-- A call is its steps, one after the other. -/
theorem run_in_steps (uid gid : UInt32) (call : NameCall) : call.run uid gid = (do
    let phase ← call.enter uid gid
    let phase ← call.look uid gid phase
    call.commit uid gid phase
    call.leave) := by
  cases call with
  | create dir name c_time permission target_path dev =>
    simp only [NameCall.run, NameCall.enter, NameCall.look, NameCall.commit, NameCall.leave,
      dbfs_common_create, bind_assoc, pure_bind]
  | link ino new_ino name ctime =>
    simp only [NameCall.run, NameCall.enter, NameCall.look, NameCall.commit, NameCall.leave,
      dbfs_common_link, bind_assoc, pure_bind]
  | unlink dir name c_time =>
    simp only [NameCall.run, NameCall.enter, NameCall.look, NameCall.commit, NameCall.leave,
      pure_bind, bind_pure_unit]
  | rmdir p_ino name c_time =>
    simp only [NameCall.run, NameCall.enter, NameCall.look, NameCall.commit, NameCall.leave,
      pure_bind, bind_pure_unit]
  | rename old_dir old_name new_dir new_name flags ctime =>
    calc NameCall.run uid gid (.rename old_dir old_name new_dir new_name flags ctime)
      _ = (do
          let old ← Fs.read (rename_old_tx uid gid old_dir old_name)
          let new ← Fs.read (rename_new_tx uid gid new_dir new_name)
          NameCall.commit uid gid (.rename old_dir old_name new_dir new_name flags ctime)
            (.read_both old new)) := rfl
      _ = _ := by
        simp only [NameCall.enter, NameCall.look, NameCall.leave, bind_assoc, pure_bind,
          bind_pure_unit]

end steps

/-! ## The threads -/

/-- A call under way. -/
structure Pending where
  uid : UInt32
  gid : UInt32
  call : NameCall
  phase : CallPhase

/-- What a call links, unlinks or removes. -/
def inode.NameCall.targets (db : Db) : NameCall → List UInt64
  | link ino .. => [ino]
  | unlink dir name _ => (db.entry dir name).toList
  | rmdir p_ino name _ => (db.entry p_ino name).toList
  | _ => []

/-- The inodes that a kernel holds for a call while it is under way. -/
def inode.NameCall.held (db : Db) (call : NameCall) : List UInt64 := call.dirs ++ call.targets db

/-- The system, the calls under way, and the calls that have made their change, the last of them
first. -/
structure Threads where
  sys : Sys
  pending : List Pending
  log : List Pending

namespace Pending

/-- The number that a create has taken. -/
def number (p : Pending) : UInt64 :=
  match p.phase with
  | .numbered number => number
  | _ => 0

/-- The change of the call is its next step. -/
def Due (p : Pending) : Prop :=
  match p.call, p.phase with
  | .create .., .numbered _ => True
  | .link .., .started => True
  | .unlink .., .started => True
  | .rmdir .., .started => True
  | .rename .., .read_both _ _ => True
  | _, _ => False

end Pending

section steps

variable [Features]

/-- One step of one thread. A call begins when no other holds an inode of it; the counter and
the table of listings may change at any time. -/
inductive ThreadStep : Threads → Threads → Prop
  | enter {s s' : Sys} {ps log : List Pending} (uid gid : UInt32) (call : NameCall)
      (phase : CallPhase) :
      call.Allowed s.db.graph → (∀ n ∈ call.held s.db, s.db.Has n) →
      (∀ q ∈ ps, (call.held s.db).Disjoint (q.call.held s.db)) →
      call.enter uid gid s = (.Ok phase, s') →
      ThreadStep ⟨s, ps, log⟩ ⟨s', ⟨uid, gid, call, phase⟩ :: ps, log⟩
  | look {s s' : Sys} {ps ps' log : List Pending} (p : Pending) (phase : CallPhase) :
      p.call.look p.uid p.gid p.phase s = (.Ok phase, s') →
      ThreadStep ⟨s, ps ++ p :: ps', log⟩ ⟨s', ps ++ { p with phase } :: ps', log⟩
  | commit {s : Sys} {ps ps' log : List Pending} (p : Pending) : p.Due →
      ThreadStep ⟨s, ps ++ p :: ps', log⟩
        ⟨(p.call.commit p.uid p.gid p.phase s).2, ps ++ ps', p :: log⟩
  | leave {s : Sys} {ps ps' log : List Pending} (p : Pending) :
      ThreadStep ⟨s, ps ++ p :: ps', log⟩ ⟨s, ps ++ ps', log⟩
  | statics {s : Sys} {ps log : List Pending} (number : UInt64)
      (table : OrdMap UInt64 ReadDirInfo) :
      ThreadStep ⟨s, ps, log⟩ ⟨⟨s.db, number, table⟩, ps, log⟩

/-- The database after whole calls, one after the other. -/
def one_by_one (db : Db) : List Pending → Db
  | [] => db
  | p :: log => (p.call.run p.uid p.gid ⟨one_by_one db log, p.number, ∅⟩).2.db

end steps

/-! ## What a call leaves of an inode that it does not hold -/

/-- Inode `n` is there, and but for its link count, time of change and parent entry it is as it
was. -/
structure SameAt (n : UInt64) (db db' : Db) : Prop where
  has : db'.Has n
  get (k : Bytes) : k ≠ dotdot → k ≠ Field.hard_links.key → k ≠ Field.ctime.key →
    db'.get n k = db.get n k

namespace SameAt

variable {n : UInt64} {db db' : Db}

theorem entry (h : SameAt n db db') {name : String} (hname : name ≠ "..") :
    db'.entry n name = db.entry n name := by
  have hkey : generate_data_key name ≠ dotdot := by
    simpa [dotdot] using hname
  rw [Db.entry, Db.entry, Db.ref, Db.ref, h.get _ hkey (by simp) (by simp)]

theorem isDir (h : SameAt n db db') : db'.IsDir n ↔ db.IsDir n := by
  refine isDir_congr ?_
  rw [Db.u16, Db.u16, h.get _ (by decide) (by decide) (by decide)]

theorem edge (h : SameAt n db db') {name : String} (hname : name ≠ "..") :
    db'.graph.edge n (generate_data_key name) = db.graph.edge n (generate_data_key name) := by
  by_cases hd : db.IsDir n
  · rw [Db.graph_edge hd (by simp), Db.graph_edge (h.isDir.mpr hd) (by simp)]
    exact h.entry hname
  · simp [Db.graph, hd, h.isDir]

theorem size (h : SameAt n db db') (hnames : Names db) (hnames' : Names db') (hd : db.IsDir n) :
    db'.graph.size n = db.graph.size n := by
  have hsize : db'.usize n .size = db.usize n .size := by
    rw [Db.usize, Db.usize, h.get _ (by decide) (by decide) (by decide)]
  rw [hnames.size n hd, hnames'.size n (h.isDir.mpr hd)] at hsize
  exact Option.some.inj hsize

end SameAt

section held

variable [Features] {db db' : Db} {call : NameCall}

/-- What a call is allowed to do depends on the inodes that it holds. -/
theorem allowed_of_same (hnames : Names db) (hnames' : Names db')
    (hsame : ∀ n ∈ call.held db, SameAt n db db') (h : call.Allowed db.graph) :
    call.Allowed db'.graph := by
  cases call with
  | create dir name c_time permission target_path dev =>
    obtain ⟨hdir, h1, h2, hfree, hsize, hrest⟩ := h
    have hs := hsame dir List.mem_cons_self
    refine ⟨hs.isDir.mpr hdir, h1, h2, (hs.edge h2).trans hfree, ?_, hrest⟩
    rw [hs.size hnames hnames' hdir]
    exact hsize
  | link ino new_ino name ctime =>
    obtain ⟨hdir, hino, h1, h2, hfree, hsize⟩ := h
    have hs := hsame new_ino List.mem_cons_self
    have hi := hsame ino (List.mem_cons_of_mem _ List.mem_cons_self)
    refine ⟨hs.isDir.mpr hdir, fun e => hino (hi.isDir.mp e), h1, h2, (hs.edge h2).trans hfree, ?_⟩
    rw [hs.size hnames hnames' hdir]
    exact hsize
  | unlink dir name c_time =>
    obtain ⟨hdir, h1, h2, htarget⟩ := h
    have hs := hsame dir List.mem_cons_self
    refine ⟨hs.isDir.mpr hdir, h1, h2, fun i hi e => ?_⟩
    rw [hs.edge h2] at hi
    have hheld : i ∈ (NameCall.unlink dir name c_time).held db := by
      obtain ⟨_, _, hentry⟩ := Db.graph_edge_some hi
      have hentry' : db.entry dir name = some i := hentry
      simp [NameCall.held, NameCall.targets, hentry']
    exact htarget i hi ((hsame i hheld).isDir.mp e)
  | rmdir p_ino name c_time =>
    obtain ⟨hdir, h1, h2, htarget⟩ := h
    have hs := hsame p_ino List.mem_cons_self
    refine ⟨hs.isDir.mpr hdir, h1, h2, fun i hi => ?_⟩
    rw [hs.edge h2] at hi
    have hheld : i ∈ (NameCall.rmdir p_ino name c_time).held db := by
      obtain ⟨_, _, hentry⟩ := Db.graph_edge_some hi
      have hentry' : db.entry p_ino name = some i := hentry
      simp [NameCall.held, NameCall.targets, hentry']
    exact (hsame i hheld).isDir.mpr (htarget i hi)
  | rename old_dir old_name new_dir new_name flags ctime =>
    obtain ⟨hod, hnd, h1, h2, h3, h4, hfree, hsize, hflags⟩ := h
    have ho := hsame old_dir List.mem_cons_self
    have hn := hsame new_dir (List.mem_cons_of_mem _ List.mem_cons_self)
    refine ⟨ho.isDir.mpr hod, hn.isDir.mpr hnd, h1, h2, h3, h4, (hn.edge h4).trans hfree, ?_,
      hflags⟩
    rw [hn.size hnames hnames' hnd]
    exact hsize

theorem held_of_same (hsame : ∀ n ∈ call.held db, SameAt n db db') (h : call.Allowed db.graph) :
    call.held db' = call.held db := by
  cases call with
  | unlink dir name c_time =>
    have hs := hsame dir List.mem_cons_self
    rw [NameCall.held, NameCall.held, NameCall.targets, NameCall.targets, hs.entry h.2.2.1]
  | rmdir p_ino name c_time =>
    have hs := hsame p_ino List.mem_cons_self
    rw [NameCall.held, NameCall.held, NameCall.targets, NameCall.targets, hs.entry h.2.2.1]
  | _ => rfl

variable {uid gid : UInt32} {number : UInt64}

/-- Only what a call unlinks or removes goes. -/
theorem inode.NameCall.Commits.stays (hvfs : call.Vfs db)
    (hc : call.Commits uid gid number db db') {n : UInt64} (hn : db.Has n)
    (ht : n ∉ call.targets db) : db'.Has n := by
  cases call with
  | create dir name t permission target_path dev =>
    obtain ⟨_, htx⟩ := hc
    obtain ⟨_, _, _, _, _, _, _, _, hnew⟩ := create_tx_spec htx
    obtain ⟨_, _, hhas, _⟩ := new_inode_tx_spec hnew
    exact (hhas n).mpr (.inr (by simpa [create_entry] using hn))
  | link ino new_ino name t =>
    obtain ⟨_, _, _, _, _, _, _, rfl⟩ := link_tx_spec hc
    simpa using hn
  | unlink dir name t =>
    obtain ⟨_, i, _, _, hi, _, _, _, _, hend⟩ := unlink_tx_spec hc
    have hi' : db.entry dir name = some i := hi
    have hne : n ≠ i := by simpa [NameCall.targets, hi', eq_comm] using ht
    rcases hend with ⟨_, rfl⟩ | ⟨_, _, rfl⟩
    · simpa [hne] using hn
    · simpa using hn
  | rmdir dir name t =>
    obtain ⟨_, i, _, _, hi, _, _, _, _, _, rfl⟩ := rmdir_tx_spec hc
    have hne : n ≠ i := by simpa [NameCall.targets, hi, eq_comm] using ht
    simpa [hne] using hn
  | rename old_dir old_name new_dir new_name flags t =>
    obtain ⟨old, new, _, ⟨_, hnew⟩, htx⟩ := hc
    obtain ⟨_, _, _, _, _, _, rfl⟩ :=
      rename_move_tx_spec (rename_new_free hnew hvfs.2.2.2.2.2.2.1) htx
    simpa [rename_moved] using hn

theorem inode.NameCall.Commits.sameAt (hvfs : call.Vfs db)
    (hc : call.Commits uid gid number db db') {n : UInt64} (hn : db.Has n)
    (hheld : n ∉ call.held db) : SameAt n db db' := by
  obtain ⟨hd, ht⟩ := not_or.mp fun h => hheld (List.mem_append.mpr h)
  have hn' := hc.stays hvfs hn ht
  exact ⟨hn', fun k h1 h2 h3 => hc.get hvfs hn hn' hd h1 h2 h3⟩

variable {s : Sys} {t : FileTree}

/-- No naming call writes the mode or the owner of an inode that is there. -/
theorem ShowsTree.owner (h : ShowsTree s.db t) (hc : call.Allowed t.names) {f : Field}
    (hf : f = .mode ∨ f = .uid ∨ f = .gid) {n : UInt64} (hn : s.db.Has n)
    (hn' : (call.run uid gid s).2.db.Has n) :
    (call.run uid gid s).2.db.get n f.key = s.db.get n f.key := by
  obtain ⟨hvfs, hsound⟩ := h.allowed hc
  rcases run_commits uid gid hvfs with he | hcommits
  · rw [he]
  · have hspares : (Call.naming call).Spares s n := by
      cases call with
      | create dir name c_time permission target_path dev =>
        rintro rfl
        exact hcommits.ready h.names hvfs hn
      | _ => trivial
    have hchanges := naming_changes (B := MAX_SIZE) (fun _ _ => id)
      (.inl (links_of_laid fun n hn => (h.readable n hn).1)) h.readable.fits call hsound.fits uid
      gid
    rcases hchanges.get n f.key hspares hn' with he | ⟨hwrites, _⟩
    · exact he
    · have hfalse := hwrites f rfl
      rcases hf with rfl | rfl | rfl <;> exact hfalse.elim

theorem ShowsTree.sameAt (h : ShowsTree s.db t) (hc : call.Allowed t.names) {n : UInt64}
    (hn : s.db.Has n) (hheld : n ∉ call.held s.db) :
    SameAt n s.db (call.run uid gid s).2.db := by
  obtain ⟨hvfs, _⟩ := h.allowed hc
  rcases run_commits uid gid hvfs with he | hcommits
  · rw [he]
    exact ⟨hn, fun _ _ _ _ => rfl⟩
  · exact hcommits.sameAt hvfs hn hheld

end held

/-! ## What a call under way relies on -/

/-- What the call has read is still so. -/
def Pending.Ready (db : Db) (p : Pending) : Prop :=
  match p.call, p.phase with
  | .link _ new_ino _ _, .started => db.Grants new_ino p.uid p.gid
  | .rename old_dir old_name _ _ _ _, .read_old old =>
    ∃ db₁, rename_old_tx p.uid p.gid old_dir old_name db = .Ok (old, db₁)
  | .rename old_dir old_name new_dir new_name _ _, .read_both old new =>
    (∃ db₁, rename_old_tx p.uid p.gid old_dir old_name db = .Ok (old, db₁)) ∧
      ∃ db₁, rename_new_tx p.uid p.gid new_dir new_name db = .Ok (new, db₁)
  | _, _ => True

structure Pending.Valid [Features] (db : Db) (p : Pending) : Prop where
  allowed : p.call.Allowed db.graph
  has (n : UInt64) : n ∈ p.call.held db → db.Has n
  ready : p.Ready db

section reads

variable {db db' : Db} {uid gid : UInt32}

/-- Mode and owner are as they were. -/
def SameOwner (n : UInt64) (db db' : Db) : Prop :=
  ∀ f : Field, f = .mode ∨ f = .uid ∨ f = .gid → db'.get n f.key = db.get n f.key

theorem SameOwner.grants {n : UInt64} (h : SameOwner n db db') (hg : db.Grants n uid gid) :
    db'.Grants n uid gid := by
  unfold Db.Grants Db.u32 Db.u16 at hg ⊢
  rw [h .uid (by simp), h .gid (by simp), h .mode (by simp)]
  exact hg

theorem SameOwner.mayTake {n i : UInt64} (h : SameOwner n db db') (hi : SameOwner i db db')
    (ht : db.MayTake n i uid) : db'.MayTake n i uid := by
  unfold Db.MayTake Db.u32 Db.u16 at ht ⊢
  rw [h .uid (by simp), h .mode (by simp), hi .uid (by simp)]
  exact ht

end reads

section valid

variable [Features] {db db' : Db} {s : Sys} {t : FileTree} {p : Pending}

theorem Pending.Ready.of_same (hv : p.Valid db) (hnames : Names db) (hnames' : Names db')
    (hsame : ∀ n ∈ p.call.held db, SameAt n db db')
    (howner : ∀ n, db.Has n → db'.Has n → SameOwner n db db') : p.Ready db' := by
  obtain ⟨uid, gid, call, phase⟩ := p
  obtain ⟨hallowed, hhas, hready⟩ := hv
  have hkept : ∀ n ∈ call.held db, SameOwner n db db' := fun n hn =>
    howner n (hhas n hn) (hsame n hn).has
  -- the entry that a rename moves stands in a directory it holds, so that its inode stays
  have hold : ∀ {old_dir new_dir : UInt64} {old_name new_name : String} {flags : UInt32}
      {ctime : DbfsTimeSpec} {old : RenameOld},
      call = .rename old_dir old_name new_dir new_name flags ctime →
      (∃ db₁, rename_old_tx uid gid old_dir old_name db = .Ok (old, db₁)) →
      ∃ db₁, rename_old_tx uid gid old_dir old_name db' = .Ok (old, db₁) := by
    rintro old_dir new_dir old_name new_name flags ctime old rfl ⟨_, h⟩
    have hentry := (rename_old_tx_spec h).2.1
    obtain ⟨hgrants, htake, _, hiuid, higid, hperm, _⟩ := (rename_old_tx_iff hentry).mp h
    obtain ⟨hod, _, _, h2, _⟩ := hallowed
    have hs := hsame old_dir List.mem_cons_self
    have ho := hkept old_dir List.mem_cons_self
    have hentry' := (hs.entry h2).trans hentry
    have hi : SameOwner old.number db db' := howner old.number (Db.has_of_u32 hiuid)
      (hnames'.wf.target (graph_entry (hs.isDir.mpr hod) hentry'))
    refine ⟨db', (rename_old_tx_iff hentry').mpr ⟨ho.grants hgrants, ho.mayTake hi htake, rfl, ?_,
      ?_, ?_, rfl⟩⟩
    · rwa [Db.u32, hi .uid (by simp)]
    · rwa [Db.u32, hi .gid (by simp)]
    · rwa [Db.u16, hi .mode (by simp)]
  cases call with
  | link ino new_ino name ctime =>
    cases phase with
    | started => exact (hkept new_ino List.mem_cons_self).grants hready
    | _ => trivial
  | rename old_dir old_name new_dir new_name flags ctime =>
    cases phase with
    | read_old old => exact hold rfl hready
    | read_both old new =>
      obtain ⟨hready, _, hnew⟩ := hready
      obtain ⟨_, hnd, _, _, _, h4, hedge, _⟩ := hallowed
      have hfree := hnames.get_free hnd hedge
      have hmem : new_dir ∈ NameCall.held db
          (.rename old_dir old_name new_dir new_name flags ctime) :=
        List.mem_cons_of_mem _ List.mem_cons_self
      have hkey : generate_data_key new_name ≠ dotdot := by
        simpa [dotdot] using h4
      have hfree' := ((hsame new_dir hmem).get _ hkey (by simp) (by simp)).trans hfree
      obtain ⟨hgrants, rfl, _⟩ := (rename_new_tx_unseen fun _ => hfree).mp hnew
      exact ⟨hold rfl hready, db', (rename_new_tx_unseen fun _ => hfree').mpr
        ⟨(hkept new_dir hmem).grants hgrants, rfl, rfl⟩⟩
    | _ => trivial
  | _ => trivial

/-- The step: a call leaves alone what the calls under way rely on. -/
theorem Pending.Valid.kept (hv : p.Valid s.db) (h : ShowsTree s.db t) {call : NameCall}
    (hc : call.Allowed t.names) (hapart : ∀ n ∈ p.call.held s.db, n ∉ call.held s.db)
    (uid gid : UInt32) : p.Valid (call.run uid gid s).2.db ∧
      p.call.held (call.run uid gid s).2.db = p.call.held s.db := by
  have hnames' := (call_names h.names call uid gid s.DBFS_INODE_NUMBER s.GLOBAL_READDIR_TABLE
    (h.allowed hc).1).1
  have hsame : ∀ n ∈ p.call.held s.db, SameAt n s.db (call.run uid gid s).2.db := fun n hn =>
    h.sameAt hc (hv.has n hn) (hapart n hn)
  have hheld := held_of_same hsame hv.allowed
  refine ⟨⟨allowed_of_same h.names hnames' hsame hv.allowed, fun n hn => ?_, ?_⟩, hheld⟩
  · rw [hheld] at hn
    exact (hsame n hn).has
  · exact .of_same hv h.names hnames' hsame fun n hn hn' f hf => h.owner hc hf hn hn'

omit [Features] in
/-- What a transaction writes depends on the database only. -/
theorem write_db {α : Type} {x : Tx α} {s s' : Sys} (h : s.db = s'.db) :
    (Fs.write x s).2.db = (Fs.write x s').2.db := by
  rw [Fs.write, Fs.write, ← h]
  rcases x s.db with _ | _ | _
  · rfl
  · exact h
  · exact h

theorem commit_db (call : NameCall) (phase : CallPhase) (uid gid : UInt32) (s s' : Sys)
    (h : s.db = s'.db) :
    (call.commit uid gid phase s).2.db = (call.commit uid gid phase s').2.db := by
  unfold NameCall.commit
  split
  · rw [Fs.discard_state, Fs.discard_state]
    exact write_db h
  · exact write_db h
  · exact write_db h
  · exact write_db h
  · rename_i new
    split_ifs
    · rcases new.number with _ | number
      · exact h
      · exact write_db h
    · simp only [Fs.bind_ensure]
      split_ifs
      · exact write_db h
      · exact h
      · exact h
  · exact h

/-- A link that is granted changes what its transaction changes. -/
theorem link_granted (h : ShowsTree s.db t) {ino new_ino : UInt64} {name : String}
    {ctime : DbfsTimeSpec} {uid gid : UInt32} (hnew : s.db.Has new_ino)
    (hgrants : s.db.Grants new_ino uid gid) :
    (dbfs_common_link uid gid ino new_ino name ctime s).2.db =
      (Fs.write (link_tx ino new_ino name ctime) s).2.db := by
  obtain ⟨attr, hattr, _⟩ := h.attr hnew
  obtain ⟨p_uid, p_gid, p_mode, huid, hgid, hmode, hacc⟩ := hgrants
  have hshows := attr_ok_iff.mp hattr
  cases hshows.uid.symm.trans huid
  cases hshows.gid.symm.trans hgid
  cases hshows.mode.symm.trans hmode
  have hacc' : checkout_access attr.uid attr.gid (attr.perm &&& 0o777) uid gid 2 = true := hacc
  unfold dbfs_common_link
  rw [Fs.bind_eq, Fs.map_err_ok.mpr hattr]
  simp only [Fs.bind_ensure, hacc', if_true, Fs.bind_write]
  rw [Fs.write]
  rcases link_tx ino new_ino name ctime s.db with _ | _ | _
  · simp only [dbfs_common_attr, Fs.map_err_read, Fs.read_state]
  · rfl
  · rfl

/-- The change of a call under way is that of the whole call made now. -/
theorem Pending.Valid.commit (hv : p.Valid s.db) (h : ShowsTree s.db t) (hdue : p.Due) :
    (p.call.commit p.uid p.gid p.phase s).2.db =
      (p.call.run p.uid p.gid ⟨s.db, p.number, ∅⟩).2.db := by
  refine (commit_db p.call p.phase p.uid p.gid s ⟨s.db, p.number, ∅⟩ rfl).trans ?_
  obtain ⟨uid, gid, call, phase⟩ := p
  obtain ⟨_, hhas, hready⟩ := hv
  cases call with
  | create dir name c_time permission target_path dev =>
    cases phase with
    | numbered number =>
      rw [NameCall.run, NameCall.commit, Fs.discard_state, Fs.discard_state, create_state, Fs.write,
        Pending.number]
      rcases create_tx number dir name uid gid c_time permission target_path dev s.db with
        _ | _ | _ <;> rfl
    | _ => exact hdue.elim
  | link ino new_ino name ctime =>
    cases phase with
    | started =>
      rw [NameCall.run, NameCall.commit, Fs.discard_state]
      exact (link_granted (s := ⟨s.db, 0, ∅⟩) h (hhas new_ino List.mem_cons_self) hready).symm
    | _ => exact hdue.elim
  | unlink dir name c_time =>
    cases phase with
    | started => rfl
    | _ => exact hdue.elim
  | rmdir p_ino name c_time =>
    cases phase with
    | started => rfl
    | _ => exact hdue.elim
  | rename old_dir old_name new_dir new_name flags ctime =>
    cases phase with
    | read_both old new =>
      obtain ⟨⟨_, hold⟩, _, hnew⟩ := hready
      simp only [NameCall.run, dbfs_common_rename, Fs.bind_read, hold, hnew]
      rfl
    | _ => exact hdue.elim

end valid

/-! ## Interleavings -/

section runs

variable [Features] {s s' : Sys} {t : FileTree} {uid gid : UInt32}

omit [Features] in
/-- The first step changes no inode, and what it reads is so. -/
theorem enter_ready {call : NameCall} {phase : CallPhase}
    (h : call.enter uid gid s = (.Ok phase, s')) :
    s'.db = s.db ∧ (Pending.mk uid gid call phase).Ready s.db := by
  cases call with
  | create dir name c_time permission target_path dev =>
    cases h
    exact ⟨rfl, trivial⟩
  | link ino new_ino name ctime =>
    simp only [NameCall.enter, Fs.bind_ok, Fs.map_err_ok, dbfs_common_attr, Fs.read_ok,
      Fs.ensure_ok, Fs.pure_ok] at h
    obtain ⟨attr, _, ⟨⟨_, hattr⟩, rfl⟩, _, _, ⟨hacc, rfl⟩, rfl, rfl⟩ := h
    obtain ⟨_, huid, hgid, hmode, _, _⟩ := attr_tx_spec hattr
    exact ⟨rfl, attr.uid, attr.gid, attr.perm, huid, hgid, hmode, hacc⟩
  | unlink dir name c_time =>
    cases h
    exact ⟨rfl, trivial⟩
  | rmdir p_ino name c_time =>
    cases h
    exact ⟨rfl, trivial⟩
  | rename old_dir old_name new_dir new_name flags ctime =>
    simp only [NameCall.enter, Fs.bind_ok, Fs.read_ok, Fs.pure_ok] at h
    obtain ⟨old, _, ⟨hold, rfl⟩, rfl, rfl⟩ := h
    exact ⟨rfl, hold⟩

omit [Features] in
theorem look_ready {p : Pending} {phase : CallPhase} (hready : p.Ready s.db)
    (h : p.call.look p.uid p.gid p.phase s = (.Ok phase, s')) :
    s'.db = s.db ∧ ({ p with phase } : Pending).Ready s.db := by
  obtain ⟨uid, gid, call, old⟩ := p
  simp only [NameCall.look] at h
  split at h
  · simp only [Fs.bind_ok, Fs.read_ok, Fs.pure_ok] at h
    obtain ⟨new, _, ⟨hnew, rfl⟩, rfl, rfl⟩ := h
    exact ⟨rfl, hready, hnew⟩
  · cases h
    exact ⟨rfl, hready⟩

theorem TreeRun.of_db {ok : FileTree → Call → Prop} (h : TreeRun ok s t) (hdb : s'.db = s.db) :
    TreeRun ok s' t := by
  have hstatics := h.statics s'.DBFS_INODE_NUMBER s'.GLOBAL_READDIR_TABLE
  rw [← hdb] at hstatics
  exact hstatics

/-- Calls one after the other lead to the state, those of the log from the first database,
what each call under way has read is still so, and no two of them hold the same inode. -/
structure Threads.Inv (db : Db) (c : Threads) : Prop where
  run : ∃ t, TreeRun (fun _ _ => True) c.sys t
  log : c.sys.db = one_by_one db c.log
  valid : ∀ p ∈ c.pending, p.Valid c.sys.db
  apart : c.pending.Pairwise fun p q => (p.call.held c.sys.db).Disjoint (q.call.held c.sys.db)

omit [Features] in
theorem sublist_without (ps ps' : List Pending) (p : Pending) :
    (ps ++ ps').Sublist (ps ++ p :: ps') :=
  List.Sublist.append_left (List.sublist_cons_self p ps') ps

theorem Threads.Inv.step {db : Db} {c c' : Threads} (h : c.Inv db) (hstep : ThreadStep c c') :
    c'.Inv db := by
  cases hstep with
  | @enter s s' ps log uid gid call phase hallowed hhas hapart henter =>
    obtain ⟨hdb, hready⟩ := enter_ready henter
    obtain ⟨⟨t, hrun⟩, hlog, hvalid, hpairs⟩ := h
    refine ⟨⟨t, hrun.of_db hdb⟩, hdb.trans hlog, ?_, ?_⟩
    · simp only [hdb]
      exact List.forall_mem_cons.mpr ⟨⟨hallowed, hhas, hready⟩, hvalid⟩
    · simp only [hdb]
      exact List.pairwise_cons.mpr ⟨hapart, hpairs⟩
  | @look s s' ps ps' log p phase hlook =>
    obtain ⟨⟨t, hrun⟩, hlog, hvalid, hpairs⟩ := h
    simp only [List.forall_mem_append, List.forall_mem_cons] at hvalid
    obtain ⟨hps, hp, hps'⟩ := hvalid
    obtain ⟨hdb, hready⟩ := look_ready hp.ready hlook
    refine ⟨⟨t, hrun.of_db hdb⟩, hdb.trans hlog, ?_, ?_⟩
    · simp only [hdb, List.forall_mem_append, List.forall_mem_cons]
      exact ⟨hps, ⟨hp.allowed, hp.has, hready⟩, hps'⟩
    · simp only [hdb, List.pairwise_append, List.pairwise_cons, List.forall_mem_cons] at hpairs ⊢
      exact hpairs
  | @commit s ps ps' log p hdue =>
    have hsub : (ps ++ ps').Sublist (ps ++ p :: ps') := sublist_without ps ps' p
    have hothers : ∀ q ∈ ps ++ ps', ∀ n ∈ q.call.held s.db, n ∉ p.call.held s.db := by
      have hpairs := h.apart
      simp only [List.pairwise_append, List.pairwise_cons, List.forall_mem_cons] at hpairs
      obtain ⟨_, ⟨hbehind, _⟩, hbefore⟩ := hpairs
      intro q hq n hn hn'
      rcases List.mem_append.mp hq with hq | hq
      · exact (hbefore q hq).1 hn hn'
      · exact hbehind q hq hn' hn
    have hp := h.valid p (by simp)
    obtain ⟨⟨t, hrun⟩, hlog, hvalid, hpairs⟩ := h
    have hallowed : p.call.Allowed t.names := by
      rw [← hrun.shows.graph]
      exact hp.allowed
    have hdb := hp.commit hrun.shows hdue
    have hcall := (hrun.statics p.number ∅).call (.naming p.call) p.uid p.gid hallowed trivial
    have hkept := fun q hq => (hvalid q (hsub.subset hq)).kept (s := ⟨s.db, p.number, ∅⟩)
      hrun.shows hallowed (hothers q hq) p.uid p.gid
    refine ⟨⟨_, hcall.of_db hdb⟩, ?_, ?_, ?_⟩
    · rw [hdb, one_by_one, ← hlog]
    · simp only [hdb]
      exact fun q hq => (hkept q hq).1
    · simp only [hdb]
      refine (hpairs.sublist hsub).imp_of_mem fun {q r} hq hr hqr => ?_
      rw [(hkept q hq).2, (hkept r hr).2]
      exact hqr
  | @leave s ps ps' log p =>
    have hsub : (ps ++ ps').Sublist (ps ++ p :: ps') := sublist_without ps ps' p
    exact ⟨h.run, h.log, fun q hq => h.valid q (hsub.subset hq), h.apart.sublist hsub⟩
  | @statics s ps log number table =>
    obtain ⟨⟨t, hrun⟩, hlog, hvalid, hpairs⟩ := h
    exact ⟨⟨t, hrun.statics number table⟩, hlog, hvalid, hpairs⟩

/-- Whatever the interleaving of allowed calls, the database is the one that they leave when they
are made one after the other, in the order of their changes. -/
theorem interleavings_are_sequential (super_blk : Bucket) (uid gid : UInt32) (ctime : DbfsTimeSpec)
    (number : UInt64) (table : OrdMap UInt64 ReadDirInfo) {c : Threads}
    (h : Relation.ReflTransGen ThreadStep
      ⟨⟨root_db super_blk uid gid ctime, number, table⟩, [], []⟩ c) :
    c.sys.db = one_by_one (root_db super_blk uid gid ctime) c.log ∧
      ∃ t, TreeRun (fun _ _ => True) c.sys t := by
  have hinv : c.Inv (root_db super_blk uid gid ctime) := by
    induction h with
    | refl =>
      refine ⟨⟨_, .root super_blk uid gid ctime number table⟩, ?_, by simp, .nil⟩
      dsimp only
      rw [one_by_one]
    | tail _ hstep ih => exact ih.step hstep
  exact ⟨hinv.log, hinv.run⟩

end runs

section sample

attribute [local instance] sli512_features

def rename_d : NameCall := .rename 1 "d" 1 "e" 0 .default

def create_in_d : NameCall :=
  .create 2 "f" .default (DbfsPermission.S_IFREG ||| 0o644) none none

def old_d : RenameOld :=
  ⟨2, 0, 0, DbfsPermission.S_IFDIR ||| DbfsPermission.S_ISGID ||| 0o755⟩

def mkdir_done : Pending := ⟨0, 0, mkdir_d, .numbered 2⟩

def rename_begun : Pending := ⟨0, 0, rename_d, .read_old old_d⟩

def rename_looked : Pending := ⟨0, 0, rename_d, .read_both old_d ⟨none, 0, 0⟩⟩

def create_begun : Pending := ⟨0, 0, create_in_d, .numbered 3⟩

def root_with_d : Sys := ⟨after_calls [mkdir_d], 3, ∅⟩

def number_taken : Sys := ⟨after_calls [mkdir_d], 4, ∅⟩

theorem room_of_size {db : Db} (h : Names db) {n : UInt64} (hn : db.IsDir n) {x : Nat}
    (hx : db.usize n .size = some x) (hroom : x + 1 ≤ MAX_SIZE) :
    db.graph.size n + 1 ≤ MAX_SIZE := by
  rw [Option.some.inj ((h.size n hn).symm.trans hx)]
  exact hroom

/-- A thread makes a directory. -/
theorem mkdir_steps : Relation.ReflTransGen ThreadStep ⟨⟨root_db ∅ 0 0 .default, 2, ∅⟩, [], []⟩
    ⟨root_with_d, [], [mkdir_done]⟩ := by
  have hroot : (root_db ∅ 0 0 .default).IsDir 1 := by decide +kernel
  have hallowed : mkdir_d.Allowed (root_db ∅ 0 0 .default).graph :=
    ⟨hroot, by decide, by decide, graph_free (by decide +kernel),
      room_of_size (root_shows ∅ 0 0 .default).names hroot (x := 1) (by decide +kernel) (by decide),
      .Directory, by decide, by decide, by simp⟩
  have henter : ThreadStep ⟨⟨root_db ∅ 0 0 .default, 2, ∅⟩, [], []⟩
      ⟨⟨root_db ∅ 0 0 .default, 3, ∅⟩, [mkdir_done], []⟩ := by
    refine .enter 0 0 mkdir_d (.numbered 2) hallowed (fun n hn => ?_) (by simp) rfl
    rw [List.mem_singleton.mp hn]
    exact Db.has_of_isDir hroot
  have hcommit : ThreadStep ⟨⟨root_db ∅ 0 0 .default, 3, ∅⟩, [] ++ mkdir_done :: [], []⟩
      ⟨(mkdir_d.commit 0 0 (.numbered 2) ⟨root_db ∅ 0 0 .default, 3, ∅⟩).2, [] ++ [],
        [mkdir_done]⟩ := .commit _ trivial
  have hdone : (mkdir_d.commit 0 0 (.numbered 2) ⟨root_db ∅ 0 0 .default, 3, ∅⟩).2 =
      root_with_d := by decide +kernel
  rw [hdone] at hcommit
  exact (Relation.ReflTransGen.refl.tail henter).tail hcommit

/-- Two threads: one begins to rename the directory, and before it has looked at the new name the
other begins to make a file in the directory. -/
theorem two_calls_begin : Relation.ReflTransGen ThreadStep ⟨root_with_d, [], [mkdir_done]⟩
    ⟨number_taken, [create_begun, rename_begun], [mkdir_done]⟩ := by
  have hrun : NameRun (fun _ => True) root_with_d.db := mkdir_d_run trivial
  have hnames := hrun.names.1
  have hroot : root_with_d.db.IsDir 1 := by decide +kernel
  have hd : root_with_d.db.IsDir 2 := by decide +kernel
  have hrename : rename_d.Allowed root_with_d.db.graph :=
    ⟨hroot, hroot, by decide, by decide, by decide, by decide, graph_free (by decide +kernel),
      room_of_size hnames hroot (x := 2) (by decide +kernel) (by decide), rfl⟩
  have hcreate : create_in_d.Allowed root_with_d.db.graph :=
    ⟨hd, by decide, by decide, graph_free (by decide +kernel),
      room_of_size hnames hd (x := 2) (by decide +kernel) (by decide), .RegularFile, by decide,
      by decide, by simp⟩
  have hfirst : ThreadStep ⟨root_with_d, [], [mkdir_done]⟩
      ⟨root_with_d, [rename_begun], [mkdir_done]⟩ := by
    refine .enter 0 0 rename_d (.read_old old_d) hrename (fun n hn => ?_) (by simp) ?_
    · obtain rfl : n = 1 := by
        simpa [NameCall.held, NameCall.dirs, NameCall.targets, rename_d] using hn
      exact Db.has_of_isDir hroot
    · have hold : rename_old_tx 0 0 1 "d" root_with_d.db = .Ok (old_d, root_with_d.db) := by
        decide +kernel
      exact Fs.bind_ok.mpr ⟨old_d, root_with_d, Fs.read_ok.mpr ⟨⟨_, hold⟩, rfl⟩, rfl⟩
  have hsecond : ThreadStep ⟨root_with_d, [rename_begun], [mkdir_done]⟩
      ⟨number_taken, [create_begun, rename_begun],
        [mkdir_done]⟩ := by
    refine .enter 0 0 create_in_d (.numbered 3) hcreate (fun n hn => ?_) (fun q hq => ?_) rfl
    · rw [List.mem_singleton.mp hn]
      exact Db.has_of_isDir hd
    · rw [List.mem_singleton.mp hq]
      simp [NameCall.held, NameCall.dirs, NameCall.targets, rename_begun, rename_d, create_in_d]
  exact (Relation.ReflTransGen.refl.tail hfirst).tail hsecond

def file_made : Sys := (create_in_d.commit 0 0 (.numbered 3) number_taken).2

def directory_renamed : Sys :=
  (rename_d.commit 0 0 (.read_both old_d ⟨none, 0, 0⟩) file_made).2

/-- The file is made, and then the directory gets its new name. -/
theorem two_calls_end : Relation.ReflTransGen ThreadStep
    ⟨number_taken, [create_begun] ++ rename_begun :: [], [mkdir_done]⟩
    ⟨directory_renamed, [], [rename_looked, create_begun, mkdir_done]⟩ := by
  have hnew : rename_new_tx 0 0 1 "e" number_taken.db =
      .Ok (⟨none, 0, 0⟩, number_taken.db) := by decide +kernel
  have hlook : ThreadStep
      ⟨number_taken, [create_begun] ++ rename_begun :: [], [mkdir_done]⟩
      ⟨number_taken, [create_begun] ++ rename_looked :: [], [mkdir_done]⟩ :=
    .look rename_begun (.read_both old_d ⟨none, 0, 0⟩)
      (Fs.bind_ok.mpr ⟨⟨none, 0, 0⟩, _, Fs.read_ok.mpr ⟨⟨_, hnew⟩, rfl⟩, rfl⟩)
  have hcreate : ThreadStep
      ⟨number_taken, [] ++ create_begun :: [rename_looked], [mkdir_done]⟩
      ⟨file_made, [] ++ [rename_looked], [create_begun, mkdir_done]⟩ := .commit _ trivial
  have hrename : ThreadStep
      ⟨file_made, [] ++ rename_looked :: [], [create_begun, mkdir_done]⟩
      ⟨directory_renamed, [] ++ [], [rename_looked, create_begun, mkdir_done]⟩ :=
    .commit _ trivial
  exact ((Relation.ReflTransGen.refl.tail hlook).tail hcreate).tail hrename

theorem two_calls_under_way :
    ∃ c c' : Threads, c.pending.length = 2 ∧ Relation.ReflTransGen ThreadStep c c' ∧
      c'.log = [rename_looked, create_begun, mkdir_done] ∧ c'.sys.db.entry 1 "e" = some 2 ∧
      c'.sys.db.entry 1 "d" = none ∧ c'.sys.db.entry 2 "f" = some 3 ∧
      c'.sys.db = one_by_one (root_db ∅ 0 0 .default) c'.log :=
  ⟨_, _, rfl, two_calls_end, rfl, by decide +kernel, by decide +kernel,
    by decide +kernel, (interleavings_are_sequential ∅ 0 0 .default 2 ∅
      ((mkdir_steps.trans two_calls_begin).trans two_calls_end)).1⟩

end sample

end dbfs2
