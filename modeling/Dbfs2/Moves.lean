-- Rename onto a free name. It moves exactly one binding and, for a directory, the parent entry
-- along; a second rename takes all of this back when the directory that gave the name was the
-- parent.
import Dbfs2.Replace

namespace dbfs2

open common Tx inode

/-! ## One binding moved -/

/-- Among the bindings of the directories, that of `i` has moved, and the parent entry of `i` with
it; the sizes follow and no link count does. -/
structure MovesOne (db db' : Db) (old_dir : UInt64) (old_name : String) (new_dir : UInt64)
    (new_name : String) (i : UInt64) : Prop where
  bound : db'.entry new_dir new_name = some i
  gone : db'.get old_dir (generate_data_key old_name) = none
  others (n : UInt64) (name : String) : db.IsDir n → ¬ (n = old_dir ∧ name = old_name) →
    ¬ (n = new_dir ∧ name = new_name) → ¬ (n = i ∧ name = "..") →
    db'.entry n name = db.entry n name
  parent : db.IsDir i → db'.entry i ".." = some new_dir
  left : old_dir ≠ new_dir →
    ∃ a, db.usize old_dir .size = some (a + 1) ∧ db'.usize old_dir .size = some a
  joined : old_dir ≠ new_dir →
    ∃ b, db.usize new_dir .size = some b ∧ db'.usize new_dir .size = some (b + 1)
  sizes (n : UInt64) : old_dir = new_dir ∨ (n ≠ old_dir ∧ n ≠ new_dir) →
    db'.usize n .size = db.usize n .size
  links (n : UInt64) : db'.u32 n .hard_links = db.u32 n .hard_links

/-- The directories of one database have the entries and the sizes of another. -/
structure SameNames (db db' : Db) : Prop where
  entries (n : UInt64) (name : String) : db.IsDir n → db'.entry n name = db.entry n name
  sizes (n : UInt64) : db'.usize n .size = db.usize n .size

/-- Renaming back is possible, and whoever does it restores the names. -/
structure ComesBack (s s' : Sys) (old_dir : UInt64) (old_name : String) (new_dir : UInt64)
    (new_name : String) : Prop where
  allowed (gid : UInt32) (t : DbfsTimeSpec) : ∃ s'',
    dbfs_common_rename 0 gid new_dir new_name old_dir old_name 0 t s' = (.Ok (), s'')
  restores (uid gid : UInt32) (t : DbfsTimeSpec) (s'' : Sys) :
    dbfs_common_rename uid gid new_dir new_name old_dir old_name 0 t s' = (.Ok (), s'') →
    SameNames s.db s''.db

/-! ## What a move does to the entries -/

section moved

variable {db db' : Db} {uid gid : UInt32} {old_dir new_dir i : UInt64}
  {name old_name new_name : String} {old : RenameOld} {new : RenameNew} {t : DbfsTimeSpec}
  {old_size new_size : Nat}

theorem Moved.entry (hm : Moved db db' old_dir old_name new_dir new_name old old_size new_size)
    (n : UInt64) (name : String) : db'.entry n name =
      if old.perm.contains .S_IFDIR = true ∧ n = old.number ∧ name = ".." then some new_dir
      else if n = new_dir ∧ name = new_name then some old.number
      else if n = old_dir ∧ name = old_name then none else db.entry n name := by
  rw [Db.entry, Db.ref, hm.get n _ (is_data_key_generate name)]
  simp only [edited, dotdot, generate_data_key_inj]
  split_ifs
  · simp
  · simp
  · rfl
  · rfl

theorem Moved.movesOne (hm : Moved db db' old_dir old_name new_dir new_name old old_size new_size)
    (hosize : db.usize old_dir .size = some old_size) (hpos : 1 ≤ old_size)
    (hnsize : db.usize new_dir .size = some new_size)
    (hperm : db.u16 old.number .mode = some old.perm)
    (hgone : db'.get old_dir (generate_data_key old_name) = none) :
    MovesOne db db' old_dir old_name new_dir new_name old.number where
  bound := by
    rw [hm.entry]
    split_ifs with hdd hnew
    · rw [hdd.2.1]
    · rfl
    · exact absurd ⟨rfl, rfl⟩ hnew
    · exact absurd ⟨rfl, rfl⟩ hnew
  gone := hgone
  others n name _ hold hnew hdd := by
    rw [hm.entry, if_neg (fun e => hdd e.2), if_neg hnew, if_neg hold]
  parent hd := by
    rw [hm.entry, if_pos ⟨contains_of_isDir hperm hd, rfl, rfl⟩]
  left hne := by
    refine ⟨old_size - 1, ?_, ?_⟩
    · rw [hosize, Nat.sub_add_cancel hpos]
    · rw [hm.size, if_neg hne, if_pos rfl]
  joined hne := ⟨new_size, hnsize, by rw [hm.size, if_pos rfl, if_neg hne]⟩
  sizes n hn := by
    rw [hm.size]
    rcases hn with rfl | ⟨hno, hnn⟩
    · by_cases hn : n = old_dir
      · rw [if_pos hn, if_pos rfl, hn, hnsize]
      · rw [if_neg hn, if_neg hn]
    · rw [if_neg hnn, if_neg hno]
  links := hm.links

theorem rename_move_tx_free (hnone : new.number = none)
    (hentry : (db.get old_dir (generate_data_key old_name)).isSome = true)
    (hosize : db.usize old_dir .size = some old_size) (hpos : 1 ≤ old_size)
    (hnsize : db.usize new_dir .size = some new_size)
    (hlt : old_dir ≠ new_dir → new_size + 1 < 2 ^ 64) (hhas : db.Has old.number) :
    rename_move_tx old_dir old_name new_dir new_name old new t db =
      .Ok ((), rename_moved db old_dir old_name new_dir new_name old old_size new_size t) := by
  obtain ⟨v, hv⟩ := Option.isSome_iff_exists.mp hentry
  simp [rename_move_tx, hnone, hosize, hpos, hnsize, hv, hhas, Db.has_of_usize hosize,
    Db.has_of_usize hnsize, rename_moved]
  exact hlt

/-- Whoever moves the entry back has undone all of it, when `i` was listed by its parent. -/
theorem MovesOne.back {db'' : Db} (h : MovesOne db db' old_dir old_name new_dir new_name i)
    (h' : MovesOne db' db'' new_dir new_name old_dir old_name i)
    (hkind : ∀ n, db'.IsDir n ↔ db.IsDir n) (hi : db.entry old_dir old_name = some i)
    (hfree : db.get new_dir (generate_data_key new_name) = none)
    (hparent : db.IsDir i → db.entry i ".." = some old_dir) : SameNames db db'' where
  entries n name hn := by
    by_cases hold : n = old_dir ∧ name = old_name
    · rw [hold.1, hold.2, h'.bound, hi]
    · by_cases hnew : n = new_dir ∧ name = new_name
      · rw [hnew.1, hnew.2, Db.entry, Db.ref, h'.gone, Db.entry, Db.ref, hfree]
      · by_cases hdd : n = i ∧ name = ".."
        · rw [hdd.1] at hn ⊢
          rw [hdd.2, h'.parent ((hkind i).mpr hn), hparent hn]
        · rw [h'.others n name ((hkind n).mpr hn) hnew hold hdd, h.others n name hn hold hnew hdd]
  sizes n := by
    by_cases hdirs : old_dir = new_dir
    · rw [h'.sizes n (.inl hdirs.symm), h.sizes n (.inl hdirs)]
    · obtain ⟨a, ha, ha'⟩ := h.left hdirs
      obtain ⟨b, hb, hb'⟩ := h.joined hdirs
      obtain ⟨c, hc, hc'⟩ := h'.left (Ne.symm hdirs)
      obtain ⟨d, hd, hd'⟩ := h'.joined (Ne.symm hdirs)
      by_cases ho : n = old_dir
      · cases ha'.symm.trans hd
        rw [ho, hd', ha]
      · by_cases hn : n = new_dir
        · cases hb'.symm.trans hc
          rw [hn, hc', hb]
        · rw [h'.sizes n (.inr ⟨hn, ho⟩), h.sizes n (.inr ⟨ho, hn⟩)]

end moved

/-! ## What root may do -/

/-- The fields that decide who may do what are those of another database. -/
structure SameOwners (db db' : Db) : Prop where
  uid (n : UInt64) : db'.u32 n .uid = db.u32 n .uid
  gid (n : UInt64) : db'.u32 n .gid = db.u32 n .gid
  mode (n : UInt64) : db'.u16 n .mode = db.u16 n .mode

section root

variable {db db' : Db} {uid gid : UInt32} {n i : UInt64}

theorem SameOwners.grants_root (h : SameOwners db db') (hg : db.Grants n uid gid) (gid' : UInt32) :
    db'.Grants n 0 gid' := by
  obtain ⟨p_uid, p_gid, mode, huid, hgid, hmode, _⟩ := hg
  exact ⟨p_uid, p_gid, mode, (h.uid n).trans huid, (h.gid n).trans hgid, (h.mode n).trans hmode,
    root_may_write ..⟩

theorem SameOwners.mayTake_root (h : SameOwners db db') (hg : db.Grants n uid gid) {i_uid : UInt32}
    (hi : db.u32 i .uid = some i_uid) : db'.MayTake n i 0 := by
  obtain ⟨p_uid, _, mode, huid, _, hmode, _⟩ := hg
  exact ⟨p_uid, mode, i_uid, (h.uid n).trans huid, (h.mode n).trans hmode, (h.uid i).trans hi,
    by simp [sticky_ok]⟩

end root

/-! ## Renaming, and renaming back -/

section run

variable {s s' : Sys} {uid gid : UInt32} {old_dir new_dir i : UInt64} {old_name new_name : String}
  {t : DbfsTimeSpec}

/-- A rename onto a free name that returns has moved the entry that it read. -/
theorem rename_onto_free (hi : s.db.entry old_dir old_name = some i)
    (hfree : s.db.get new_dir (generate_data_key new_name) = none)
    (hrun : dbfs_common_rename uid gid old_dir old_name new_dir new_name 0 t s = (.Ok (), s')) :
    ∃ old old_size new_size, rename_old_tx uid gid old_dir old_name s.db = .Ok (old, s.db) ∧
      s.db.Grants new_dir uid gid ∧ s.db.usize old_dir .size = some old_size ∧ 1 ≤ old_size ∧
      s.db.usize new_dir .size = some new_size ∧ (old_dir ≠ new_dir → new_size + 1 < 2 ^ 64) ∧
      s'.db = rename_moved s.db old_dir old_name new_dir new_name old old_size new_size t := by
  obtain ⟨old, new, ⟨_, hold⟩, ⟨_, hnew⟩, hend⟩ := rename_spec hrun
  obtain ⟨_, _, _, _, _, _, rfl⟩ := (rename_old_tx_iff hi).mp hold
  obtain ⟨hgrant, rfl, rfl⟩ := (rename_new_tx_unseen fun _ => hfree).mp hnew
  obtain ⟨_, hnumber, _⟩ | htx := hend
  · cases hnumber
  · obtain ⟨old_size, new_size, hosize, hpos, hnsize, hlt, hdb⟩ := rename_move_tx_spec rfl htx
    exact ⟨old, old_size, new_size, hold, hgrant, hosize, hpos, hnsize, hlt, hdb⟩

section moves

variable (hi : s.db.entry old_dir old_name = some i)
  (hfree : s.db.get new_dir (generate_data_key new_name) = none)
  (hrun : dbfs_common_rename uid gid old_dir old_name new_dir new_name 0 t s = (.Ok (), s'))

include hi hfree hrun

/-- Such a rename keeps the owners and the modes of all inodes. -/
theorem rename_sameOwners : SameOwners s.db s'.db := by
  obtain ⟨old, a, b, _, _, _, _, _, _, hdb⟩ := rename_onto_free hi hfree hrun
  rw [hdb]
  exact ⟨fun n => by simp [rename_moved], fun n => by simp [rename_moved],
    fun n => by simp [rename_moved]⟩

theorem rename_isDir (n : UInt64) : s'.db.IsDir n ↔ s.db.IsDir n :=
  isDir_congr ((rename_sameOwners hi hfree hrun).mode n)

theorem rename_onto_free_moved : ∃ old old_size new_size, old.number = i ∧
    s.db.u16 i .mode = some old.perm ∧ s.db.usize old_dir .size = some old_size ∧ 1 ≤ old_size ∧
    s.db.usize new_dir .size = some new_size ∧
    Moved s.db s'.db old_dir old_name new_dir new_name old old_size new_size := by
  obtain ⟨old, a, b, hold, _, hosize, hpos, hnsize, hlt, hdb⟩ := rename_onto_free hi hfree hrun
  obtain ⟨_, _, rfl, _, _, hperm, _⟩ := (rename_old_tx_iff hi).mp hold
  refine ⟨old, a, b, rfl, hperm, hosize, hpos, hnsize, ?_⟩
  rw [hdb]
  refine rename_moved_moved (Db.has_of_usize hosize) (Db.has_of_usize hnsize) ?_ ?_
    (Db.has_of_u16 hperm)
  · have := Db.lt_of_usize hosize
    omega
  · split_ifs with hdirs
    · exact Db.lt_of_usize hnsize
    · exact hlt hdirs

theorem rename_parent (hd : s.db.IsDir i) : s'.db.entry i ".." = some new_dir := by
  obtain ⟨old, a, b, rfl, hperm, _, _, _, hm⟩ := rename_onto_free_moved hi hfree hrun
  rw [hm.entry, if_pos ⟨contains_of_isDir hperm hd, rfl, rfl⟩]

/-- Only a directory that is its own parent keeps the name that it was to lose. -/
theorem rename_movesOne (hself : ¬ (i = old_dir ∧ old_name = "..")) :
    MovesOne s.db s'.db old_dir old_name new_dir new_name i := by
  obtain ⟨old, a, b, rfl, hperm, hosize, hpos, hnsize, hm⟩ := rename_onto_free_moved hi hfree hrun
  have hplace : ¬ (old_dir = new_dir ∧ old_name = new_name) := by
    rintro ⟨rfl, rfl⟩
    rw [Db.entry, Db.ref, hfree] at hi
    cases hi
  refine hm.movesOne hosize hpos hnsize hperm ?_
  rw [hm.get _ _ (is_data_key_generate _), if_neg]
  · simp only [edited, generate_data_key_inj, if_neg hplace, true_and, if_pos, Option.map_none]
  · rintro ⟨_, hdir, hname⟩
    exact hself ⟨hdir.symm, generate_data_key_injective hname⟩

/-- Root can always rename back to the name that became free. -/
theorem rename_back_root (hgone : s'.db.get old_dir (generate_data_key old_name) = none)
    (hbound : s'.db.entry new_dir new_name = some i) (gid' : UInt32) (t' : DbfsTimeSpec) :
    ∃ s'', dbfs_common_rename 0 gid' new_dir new_name old_dir old_name 0 t' s' = (.Ok (), s'') := by
  have howners := rename_sameOwners hi hfree hrun
  obtain ⟨old, a, b, hold, hgrant, hosize, hpos, hnsize, hlt, hdb⟩ :=
    rename_onto_free hi hfree hrun
  obtain ⟨hout, _, rfl, huid, hgid, hperm, _⟩ := (rename_old_tx_iff hi).mp hold
  obtain ⟨_, a', b', _, _, hosize', _, hnsize', hm⟩ := rename_onto_free_moved hi hfree hrun
  cases hosize.symm.trans hosize'
  cases hnsize.symm.trans hnsize'
  have hold' : rename_old_tx 0 gid' new_dir new_name s'.db = .Ok (old, s'.db) :=
    (rename_old_tx_iff hbound).mpr ⟨howners.grants_root hgrant gid',
      howners.mayTake_root hgrant huid, rfl, (howners.uid _).trans huid,
      (howners.gid _).trans hgid, (howners.mode _).trans hperm, rfl⟩
  have hnew' : rename_new_tx 0 gid' old_dir old_name s'.db = .Ok (⟨none, 0, 0⟩, s'.db) :=
    (rename_new_tx_unseen fun _ => hgone).mpr ⟨howners.grants_root hout gid', rfl, rfl⟩
  rw [rename_run hold' hnew', if_neg (fun e => nomatch e.1), if_neg (by simp [root_may_write])]
  obtain ⟨v, hv, _⟩ := Option.bind_eq_some_iff.mp hbound
  have hsome : (s'.db.get new_dir (generate_data_key new_name)).isSome = true := by
    rw [hv]
    rfl
  have hhas : s'.db.Has old.number := (hm.has _).mpr (Db.has_of_u32 huid)
  have hlt' := Db.lt_of_usize hosize
  by_cases hdirs : old_dir = new_dir
  · subst hdirs
    cases hosize.symm.trans hnsize
    have hsize : s'.db.usize old_dir .size = some a := by
      rw [hm.size, if_pos rfl, if_pos rfl]
    exact ⟨_, Fs.write_ok.mpr ⟨_, rename_move_tx_free rfl hsome hsize hpos hsize
      (fun e => absurd rfl e) hhas, rfl⟩⟩
  · have hsize : s'.db.usize new_dir .size = some (b + 1) := by
      rw [hm.size, if_pos rfl, if_neg hdirs]
    have hsize' : s'.db.usize old_dir .size = some (a - 1) := by
      rw [hm.size, if_neg hdirs, if_pos rfl]
    exact ⟨_, Fs.write_ok.mpr ⟨_, rename_move_tx_free rfl hsome hsize (by omega) hsize'
      (fun _ => by omega) hhas, rfl⟩⟩

end moves

/-- A directory must have been listed by its parent, or by itself under another name than `..`. -/
theorem rename_comesBack (hod : s.db.IsDir old_dir) (hnd : s.db.IsDir new_dir)
    (hi : s.db.entry old_dir old_name = some i)
    (hfree : s.db.get new_dir (generate_data_key new_name) = none)
    (hrun : dbfs_common_rename uid gid old_dir old_name new_dir new_name 0 t s = (.Ok (), s'))
    (hparent : s.db.IsDir i →
      s.db.entry i ".." = some old_dir ∧ ¬ (i = old_dir ∧ old_name = "..")) :
    MovesOne s.db s'.db old_dir old_name new_dir new_name i ∧
      ComesBack s s' old_dir old_name new_dir new_name := by
  have hself : ¬ (i = old_dir ∧ old_name = "..") := fun e => (hparent (e.1 ▸ hod)).2 e
  have hmoves := rename_movesOne hi hfree hrun hself
  refine ⟨hmoves, fun gid' t' => rename_back_root hi hfree hrun hmoves.gone hmoves.bound gid' t',
    fun uid' gid' t' s'' hrun' => ?_⟩
  -- a free name `..` was not one of the directory that is moved
  have hself' : ¬ (i = new_dir ∧ new_name = "..") := by
    rintro ⟨rfl, rfl⟩
    have hdd := (hparent hnd).1
    rw [Db.entry, Db.ref, hfree] at hdd
    cases hdd
  have hback := rename_movesOne hmoves.bound hmoves.gone hrun' hself'
  exact hmoves.back hback (rename_isDir hi hfree hrun) hi hfree fun hd => (hparent hd).1

/-- Below a name that is no dot stands a directory whose parent is the one that lists it. -/
theorem Names.parent_entry {db : Db} (h : Names db) (hod : db.IsDir old_dir)
    (hi : db.entry old_dir old_name = some i) (h1 : old_name ≠ ".") (h2 : old_name ≠ "..")
    (hd : db.IsDir i) : db.entry i ".." = some old_dir :=
  (Db.graph_edge_some (h.wf.back (proper_name h1 h2) hd (graph_entry hod hi))).2.2

/-- A rename onto a free name moves one binding, and back, exactly when a directory that it moves
has the old directory for its parent and does not lose its parent entry by it. -/
theorem moves_one_binding_iff (hod : s.db.IsDir old_dir) (hnd : s.db.IsDir new_dir)
    (hi : s.db.entry old_dir old_name = some i)
    (hfree : s.db.get new_dir (generate_data_key new_name) = none)
    (hrun : dbfs_common_rename uid gid old_dir old_name new_dir new_name 0 t s = (.Ok (), s')) :
    (MovesOne s.db s'.db old_dir old_name new_dir new_name i ∧
        ComesBack s s' old_dir old_name new_dir new_name) ↔
      (s.db.IsDir i → s.db.entry i ".." = some old_dir ∧ ¬ (i = old_dir ∧ old_name = "..")) := by
  refine ⟨fun ⟨hmoves, hcomes⟩ hd => ⟨?_, ?_⟩, rename_comesBack hod hnd hi hfree hrun⟩
  · obtain ⟨s'', hback⟩ := hcomes.allowed 0 .default
    have hd' := (rename_isDir hi hfree hrun i).mpr hd
    have hdd := rename_parent hmoves.bound hmoves.gone hback hd'
    rw [← (hcomes.restores 0 0 .default s'' hback).entries i ".." hd, hdd]
  · rintro ⟨rfl, rfl⟩
    have hdd := hmoves.parent hd
    rw [Db.entry, Db.ref, hmoves.gone] at hdd
    cases hdd

/-- So a rename of any name but the dots moves one binding, and can be moved back. -/
theorem proper_rename_moves_one (h : Names s.db) (hod : s.db.IsDir old_dir)
    (hnd : s.db.IsDir new_dir) (hi : s.db.entry old_dir old_name = some i) (h1 : old_name ≠ ".")
    (h2 : old_name ≠ "..") (hfree : s.db.get new_dir (generate_data_key new_name) = none)
    (hrun : dbfs_common_rename uid gid old_dir old_name new_dir new_name 0 t s = (.Ok (), s')) :
    MovesOne s.db s'.db old_dir old_name new_dir new_name i ∧
      ComesBack s s' old_dir old_name new_dir new_name :=
  (moves_one_binding_iff hod hnd hi hfree hrun).mpr fun hd =>
    ⟨h.parent_entry hod hi h1 h2 hd, fun e => h2 e.2⟩

end run

/-! ## A directory moved by its own name -/

section sample

attribute [local instance] sli512_features

/-- After the directory `d` is renamed from its own entry `.` to the name `x` of the root. -/
def dot_moved : Sys := (dbfs_common_rename 0 0 2 "." 1 "x" 0 .default dir_and_file).2

/-- And after it is renamed back. -/
def dot_moved_back : Sys := (dbfs_common_rename 0 0 1 "x" 2 "." 0 .default dot_moved).2

/-- Then it is its own parent, which was the root. -/
theorem dot_does_not_come_back :
    Names dir_and_file.db ∧ dir_and_file.db.entry 2 "." = some 2 ∧
      dir_and_file.db.get 1 (generate_data_key "x") = none ∧
      dbfs_common_rename 0 0 2 "." 1 "x" 0 .default dir_and_file = (.Ok (), dot_moved) ∧
      dbfs_common_rename 0 0 1 "x" 2 "." 0 .default dot_moved = (.Ok (), dot_moved_back) ∧
      dir_and_file.db.entry 2 ".." = some 1 ∧ dot_moved_back.db.entry 2 ".." = some 2 ∧
      ¬ ComesBack dir_and_file dot_moved 2 "." 1 "x" := by
  have hrun : dbfs_common_rename 0 0 1 "x" 2 "." 0 .default dot_moved = (.Ok (), dot_moved_back) :=
    Prod.ext (by decide +kernel) rfl
  have hbefore : dir_and_file.db.entry 2 ".." = some 1 := by decide +kernel
  have hafter : dot_moved_back.db.entry 2 ".." = some 2 := by decide +kernel
  refine ⟨dir_and_file_names, by decide +kernel, by decide +kernel,
    Prod.ext (by decide +kernel) rfl, hrun, hbefore, hafter, fun h => ?_⟩
  have hback := (h.restores 0 0 .default _ hrun).entries 2 ".." (by decide +kernel)
  rw [hafter, hbefore] at hback
  cases hback

/-- The file of the root is renamed into the directory, the directory to another name, and both
come back. -/
theorem file_comes_back :
    (MovesOne dir_and_file.db (dbfs_common_rename 0 0 1 "f" 2 "g" 0 .default dir_and_file).2.db
        1 "f" 2 "g" 3 ∧
      ComesBack dir_and_file (dbfs_common_rename 0 0 1 "f" 2 "g" 0 .default dir_and_file).2
        1 "f" 2 "g") ∧
    MovesOne dir_and_file.db (dbfs_common_rename 0 0 1 "d" 1 "e" 0 .default dir_and_file).2.db
        1 "d" 1 "e" 2 ∧
      ComesBack dir_and_file (dbfs_common_rename 0 0 1 "d" 1 "e" 0 .default dir_and_file).2
        1 "d" 1 "e" :=
  ⟨proper_rename_moves_one dir_and_file_names (by decide +kernel) (by decide +kernel)
      (by decide +kernel) (by decide) (by decide) (by decide +kernel)
      (Prod.ext (by decide +kernel) rfl),
    proper_rename_moves_one dir_and_file_names (by decide +kernel) (by decide +kernel)
      (by decide +kernel) (by decide) (by decide) (by decide +kernel)
      (Prod.ext (by decide +kernel) rfl)⟩

end sample

end dbfs2
