-- The five naming calls as changes of the graph of names. A call that commits its transaction
-- changes the graph in one way, which its arguments and the graph alone determine; every other
-- call leaves the graph as it is.
import Dbfs2.NameRuns
import Dbfs2.NameTree

namespace dbfs2

open common Tx inode

/-! ## The changes -/

/-- What a call does to the graph of names. A new inode gets the given number. -/
noncomputable def inode.NameCall.on (number : UInt64) (g : NameGraph UInt64 Bytes) :
    NameCall → NameGraph UInt64 Bytes
  | create dir name _ permission _ _ =>
    if permission &&& DbfsPermission.S_IFMT = DbfsPermission.S_IFDIR then
      g.addDir dot dotdot dir (generate_data_key name) number
    else g.name dir (generate_data_key name) number
  | link ino new_ino name _ => g.name new_ino (generate_data_key name) ino
  | unlink dir name _ =>
    match g.edge dir (generate_data_key name) with
    | none => g
    | some i => g.unname dir (generate_data_key name) i
  | rmdir p_ino name _ =>
    match g.edge p_ino (generate_data_key name) with
    | none => g
    | some i => g.removeDir p_ino (generate_data_key name) i
  | rename old_dir old_name new_dir new_name _ _ =>
    match g.edge old_dir (generate_data_key old_name) with
    | none => g
    | some i => g.move dotdot old_dir (generate_data_key old_name) new_dir
        (generate_data_key new_name) i

/-- What the database has seen to when a call commits: a number that is new, a node to link to, and
an empty directory to remove. -/
def inode.NameCall.Ready (number : UInt64) (g : NameGraph UInt64 Bytes) : NameCall → Prop
  | create .. => number ∉ g.node
  | link ino .. => ino ∈ g.node
  | rmdir p_ino name _ => ∀ i, g.edge p_ino (generate_data_key name) = some i → i ∈ g.dir →
      g.size i ≤ 2
  | _ => True

section steps

variable {db db' : Db} {uid gid : UInt32} {name : String} {t : DbfsTimeSpec} {u : Unit}

/-- Edits of a graph of the same nodes. -/
theorem Edits.graph_of_has {es : List Edit} (h : Edits db db' es) {N : Set UInt64}
    (hN : ∀ n, db'.Has n ↔ n ∈ N) : db'.graph = { Edit.graph db.graph es with node := N } := by
  rw [h.graph, show {n | db'.Has n} = N from Set.ext hN]

theorem create_graph [Features] {n dir : UInt64} {permission : DbfsPermission}
    {target_path : Option String} {dev : Option UInt32} {ty : DbfsFileType}
    {r : UInt32 × DbfsPermission × UInt32 × Nat × Option UInt32}
    (hty : permission &&& DbfsPermission.S_IFMT = ty.bits)
    (htx : create_tx n dir name uid gid t permission target_path dev db = .Ok (r, db'))
    (hdir : db.IsDir dir) :
    db'.graph = (NameCall.create dir name t permission target_path dev).on n db.graph := by
  have hc := create_created hty htx (Db.has_of_isDir hdir)
  by_cases hd : ty = .Directory
  · subst hd
    have hbits : permission &&& DbfsPermission.S_IFMT = DbfsPermission.S_IFDIR := hty
    rw [NameCall.on, if_pos hbits]
    refine hc.graph_dir ?_ hdir
    rw [new_dots, if_pos ((contains_dir_bit hty).mpr (.inl rfl))]
    rfl
  · have hnot : permission &&& DbfsPermission.S_IFMT ≠ DbfsPermission.S_IFDIR := by
      rw [hty]
      revert hd
      cases ty <;> decide
    have hnd : ¬ db.IsDir n := fun e => hc.fresh (Db.has_of_isDir e)
    rw [NameCall.on, if_neg hnot]
    refine (Edits.mk (fun m => ?_) ?_ fun m k hm hk => ?_ :
      Edits db db' [⟨dir, generate_data_key name, some n⟩]).graph_of_has hc.has
    · by_cases hmn : m = n
      · subst hmn
        simp [hc.new_isDir, hd, hnd]
      · exact hc.isDir hmn
    · simp [hdir]
    · exact hc.get m k (fun e => hnd (e ▸ hm)) hk

theorem link_graph {ino new_ino : UInt64} (number : UInt64)
    (htx : link_tx ino new_ino name t db = .Ok (u, db'))
    (hdir : db.IsDir new_ino) :
    db'.graph = (NameCall.link ino new_ino name t).on number db.graph := by
  obtain ⟨_, _, hhas, _, _, _, _, hdb⟩ := link_tx_spec htx
  refine (link_edits htx hdir).graph_of_has fun n => ?_
  have hsame : db'.Has n ↔ db.Has n := by simp [hdb]
  rw [hsame, Set.mem_insert_iff]
  refine ⟨.inr, ?_⟩
  rintro (rfl | hn)
  · exact hhas
  · exact hn

theorem unlink_graph {dir : UInt64} (number : UInt64) (h : Names db)
    (htx : unlink_tx uid gid dir name none t db = .Ok (u, db')) (hdir : db.IsDir dir)
    (htarget : ∀ i, db.entry dir name = some i → ¬ db.IsDir i) :
    db'.graph = (NameCall.unlink dir name t).on number db.graph := by
  obtain ⟨_, i, _, links, hi, _, _, _, hlinks, hend⟩ := unlink_tx_spec htx
  obtain ⟨l, hl, hcount⟩ := h.links i (Db.has_of_u32 hlinks) (htarget i hi)
  cases hlinks.symm.trans hl
  simp only [NameCall.on, graph_entry hdir hi]
  refine (unlink_edits htx hdir htarget).graph_of_has fun n => ?_
  rcases hend with ⟨rfl, hdb⟩ | ⟨hne, _, hdb⟩
  · rw [if_pos (show db.graph.refs i = 1 from hcount.symm)]
    simp [hdb, and_comm, Db.graph]
  · rw [if_neg]
    · simp [hdb, Db.graph]
    · intro hone
      exact hne (UInt32.toNat_inj.mp (hcount.trans hone))

theorem rmdir_graph {dir : UInt64} (number : UInt64)
    (htx : rmdir_tx uid gid dir name t db = .Ok (u, db'))
    (hdir : db.IsDir dir) : db'.graph = (NameCall.rmdir dir name t).on number db.graph := by
  obtain ⟨_, i, size, _, hi, _, _, _, hsize, _, _⟩ := rmdir_tx_spec htx
  simp only [NameCall.on, graph_entry hdir hi]
  exact (rmdir_removed htx hi hsize).graph

/-- Rmdir has looked at the stored size. -/
theorem rmdir_empty {dir i : UInt64} (h : Names db)
    (htx : rmdir_tx uid gid dir name t db = .Ok (u, db')) (hdir : db.IsDir dir)
    (hi : db.graph.edge dir (generate_data_key name) = some i) (hd : db.IsDir i) :
    db.graph.size i ≤ 2 := by
  obtain ⟨_, j, _, size, hj, _, hsize, hle, _⟩ := rmdir_tx_spec htx
  cases hi.symm.trans (graph_entry hdir hj)
  cases (h.size i hd).symm.trans hsize
  exact hle

/-- A rename found nothing under a free name. -/
theorem rename_new_free {new_dir : UInt64} {new_name : String} {new : RenameNew} {db₂ : Db}
    (hnew : rename_new_tx uid gid new_dir new_name db = .Ok (new, db₂))
    (hfree : db.get new_dir (generate_data_key new_name) = none) : new.number = none := by
  obtain ⟨_, _, _, ⟨hnone, _⟩ | ⟨i, _, hi, _⟩⟩ := rename_new_tx_spec hnew
  · exact hnone
  · rw [Db.entry, Db.ref, hfree] at hi
    cases hi

theorem rename_graph {old_dir new_dir : UInt64} {old_name new_name : String} {old : RenameOld}
    {new : RenameNew} {db₁ db₂ : Db} (number : UInt64) (flags : UInt32)
    (hold : rename_old_tx uid gid old_dir old_name db = .Ok (old, db₁))
    (hnew : rename_new_tx uid gid new_dir new_name db = .Ok (new, db₂))
    (htx : rename_move_tx old_dir old_name new_dir new_name old new t db = .Ok (u, db'))
    (hod : db.IsDir old_dir) (hnd : db.IsDir new_dir)
    (hfree : db.get new_dir (generate_data_key new_name) = none) :
    db'.graph =
      (NameCall.rename old_dir old_name new_dir new_name flags t).on number db.graph := by
  obtain ⟨_, hentry, hhas, _, hperm⟩ := rename_old_tx_spec hold
  have hnone := rename_new_free hnew hfree
  obtain ⟨old_size, new_size, hosize, hpos, hnsize, hlt, rfl⟩ := rename_move_tx_spec hnone htx
  have hm : Moved db (rename_moved db old_dir old_name new_dir new_name old old_size new_size t)
      old_dir old_name new_dir new_name old old_size new_size := by
    refine rename_moved_moved (Db.has_of_isDir hod) (Db.has_of_isDir hnd) ?_ ?_ hhas
    · have := Db.lt_of_usize hosize
      omega
    · split_ifs with e
      · exact Db.lt_of_usize hnsize
      · exact hlt e
  simp only [NameCall.on, graph_entry hod hentry, NameGraph.move]
  by_cases hd : db.IsDir old.number
  · rw [if_pos (show old.number ∈ db.graph.dir from hd)]
    exact (hm.edits_dir hod hnd hperm hd).graph_of_has hm.has
  · rw [if_neg (show old.number ∉ db.graph.dir from hd)]
    exact (hm.edits_leaf hod hnd hd).graph_of_has hm.has

end steps

/-! ## The calls -/

/-- The transaction of a call ran. A rename first read both ends; it is one without flags. -/
def inode.NameCall.Commits [Features] (uid gid : UInt32) (number : UInt64) (db db' : Db) :
    NameCall → Prop
  | create dir name t permission target_path dev =>
    ∃ r, create_tx number dir name uid gid t permission target_path dev db = .Ok (r, db')
  | link ino new_ino name t => link_tx ino new_ino name t db = .Ok ((), db')
  | unlink dir name t => unlink_tx uid gid dir name none t db = .Ok ((), db')
  | rmdir p_ino name t => rmdir_tx uid gid p_ino name t db = .Ok ((), db')
  | rename old_dir old_name new_dir new_name _ t => ∃ old new,
      (∃ db₁, rename_old_tx uid gid old_dir old_name db = .Ok (old, db₁)) ∧
      (∃ db₁, rename_new_tx uid gid new_dir new_name db = .Ok (new, db₁)) ∧
      rename_move_tx old_dir old_name new_dir new_name old new t db = .Ok ((), db')

section calls

variable [Features] {s s' : Sys} {uid gid : UInt32} {call : NameCall}

theorem run_commits (uid gid : UInt32) (hvfs : call.Vfs s.db) :
    (call.run uid gid s).2.db = s.db ∨
      call.Commits uid gid s.DBFS_INODE_NUMBER s.db (call.run uid gid s).2.db := by
  cases call with
  | create dir name t permission target_path dev =>
    rw [NameCall.run, Fs.discard_state]
    exact create_db dir permission target_path dev s
  | link ino new_ino name t =>
    rw [NameCall.run, Fs.discard_state]
    exact link_db ino new_ino s
  | unlink dir name t =>
    rcases Fs.write_state (unlink_tx uid gid dir name none t) s with he | ⟨_, db', htx, he⟩
    · exact .inl (congrArg Sys.db he)
    · rw [NameCall.run, dbfs_common_unlink, he]
      exact .inr htx
  | rmdir dir name t =>
    rcases Fs.write_state (rmdir_tx uid gid dir name t) s with he | ⟨_, db', htx, he⟩
    · exact .inl (congrArg Sys.db he)
    · rw [NameCall.run, dbfs_common_rmdir, he]
      exact .inr htx
  | rename old_dir old_name new_dir new_name flags t =>
    obtain ⟨_, _, _, _, _, _, _, rfl⟩ := hvfs
    exact rename_db

theorem ok_commits (hvfs : call.Vfs s.db) (h : call.run uid gid s = (.Ok (), s')) :
    call.Commits uid gid s.DBFS_INODE_NUMBER s.db s'.db := by
  cases call with
  | create dir name t permission target_path dev =>
    simp only [NameCall.run, Fs.bind_ok, Fs.pure_ok] at h
    obtain ⟨attr, _, hcreate, _, rfl⟩ := h
    exact (create_spec hcreate).2
  | link ino new_ino name t =>
    simp only [NameCall.run, Fs.bind_ok, Fs.pure_ok] at h
    obtain ⟨attr, _, hlink, _, rfl⟩ := h
    obtain ⟨_, db', htx, rfl⟩ := link_spec hlink
    exact htx
  | unlink dir name t =>
    obtain ⟨db', htx, rfl⟩ := Fs.write_ok.mp h
    exact htx
  | rmdir dir name t =>
    obtain ⟨db', htx, rfl⟩ := Fs.write_ok.mp h
    exact htx
  | rename old_dir old_name new_dir new_name flags t =>
    obtain ⟨_, _, _, _, _, _, hfree, _⟩ := hvfs
    obtain ⟨old, new, hold, ⟨_, hnew⟩, ⟨number, hnumber, _⟩ | htx⟩ := rename_spec h
    · rw [rename_new_free hnew hfree] at hnumber
      cases hnumber
    · exact ⟨old, new, hold, ⟨_, hnew⟩, htx⟩

variable {number : UInt64} {db db' : Db}

theorem inode.NameCall.Commits.ready (h : Names db) (hvfs : call.Vfs db)
    (hc : call.Commits uid gid number db db') : call.Ready number db.graph := by
  cases call with
  | create dir name t permission target_path dev =>
    obtain ⟨hdir, _, _, _, ty, hty⟩ := hvfs
    obtain ⟨_, htx⟩ := hc
    exact (create_created hty htx (Db.has_of_isDir hdir)).fresh
  | link ino new_ino name t =>
    obtain ⟨_, _, hhas, _⟩ := link_tx_spec hc
    exact hhas
  | unlink dir name t => trivial
  | rmdir dir name t => exact fun i hi hd => rmdir_empty h hc hvfs.1 hi hd
  | rename old_dir old_name new_dir new_name flags t => trivial

theorem inode.NameCall.Commits.graph (h : Names db) (hvfs : call.Vfs db)
    (hc : call.Commits uid gid number db db') : db'.graph = call.on number db.graph := by
  cases call with
  | create dir name t permission target_path dev =>
    obtain ⟨hdir, _, _, _, ty, hty⟩ := hvfs
    obtain ⟨_, htx⟩ := hc
    exact create_graph hty htx hdir
  | link ino new_ino name t => exact link_graph number hc hvfs.1
  | unlink dir name t => exact unlink_graph number h hc hvfs.1 hvfs.2.2.2
  | rmdir dir name t => exact rmdir_graph number hc hvfs.1
  | rename old_dir old_name new_dir new_name flags t =>
    obtain ⟨hod, hnd, _, _, _, _, hfree, _⟩ := hvfs
    obtain ⟨old, new, ⟨_, hold⟩, ⟨_, hnew⟩, htx⟩ := hc
    exact rename_graph number flags hold hnew htx hod hnd hfree

end calls

end dbfs2
