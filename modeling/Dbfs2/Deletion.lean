-- Directories that go. rmdir and rename look at the stored size of a directory and never
-- at its entries, and the names given to create and link may be taken, so that sizes run
-- ahead of the entries. They never fall behind, unless a name is made for the root or a
-- mode is taken for a directory that has another type bit too.
import Dbfs2.NameTally
import Dbfs2.NameRuns

namespace dbfs2

open common Tx inode fs_type

/-! ## Runs with names that are taken -/

namespace inode.NameCall

/-- What is known of a call: its directories exist, it names no dots, unlink is for what is no
directory and rmdir for directories. -/
def Placed (db : Db) : NameCall → Prop
  | create dir name _ _ _ _ => db.IsDir dir ∧ name ≠ "." ∧ name ≠ ".."
  | link _ new_ino name _ => db.IsDir new_ino ∧ name ≠ "." ∧ name ≠ ".."
  | unlink dir name _ => db.IsDir dir ∧ name ≠ "." ∧ name ≠ ".." ∧
      ∀ i, db.entry dir name = some i → ¬ db.IsDir i
  | rmdir p_ino name _ => db.IsDir p_ino ∧ name ≠ "." ∧ name ≠ ".." ∧
      ∀ i, db.entry p_ino name = some i → db.IsDir i
  | rename old_dir old_name new_dir new_name _ _ => db.IsDir old_dir ∧ db.IsDir new_dir ∧
      old_name ≠ "." ∧ old_name ≠ ".." ∧ new_name ≠ "." ∧ new_name ≠ ".."

/-- The call makes no name for the root, and what it makes that passes for a directory has the
type of one. -/
def Sized : NameCall → Prop
  | create _ _ _ permission _ _ => DbfsFileType.from permission = some .Directory →
      permission &&& DbfsPermission.S_IFMT = DbfsPermission.S_IFDIR
  | link ino _ _ _ => ino ≠ 1
  | _ => True

end inode.NameCall

/-- The state that a call leaves, by any requester and with any number on the counter. -/
inductive PlacedStep [Features] (ok : NameCall → Prop) (db : Db) : Db → Prop
  | call (call : NameCall) (uid gid : UInt32) (number : UInt64)
      (table : OrdMap UInt64 ReadDirInfo) :
      call.Placed db → ok call → PlacedStep ok db (call.run uid gid ⟨db, number, table⟩).2.db

/-- The states of the runs from a new root inode whose calls all meet a condition. -/
def PlacedRun [Features] (ok : NameCall → Prop) (db : Db) : Prop :=
  ∃ super_blk uid gid ctime,
    Relation.ReflTransGen (PlacedStep ok) (root_db super_blk uid gid ctime) db

/-- A directory with no entries but its dots. -/
def Db.OnlyDots (db : Db) (n : UInt64) : Prop :=
  ∀ k v, db.get n k = some v → is_data_key k = true → k = dot ∨ k = dotdot

/-! ## The stored sizes -/

/-- The stored sizes are a tally of the entries. -/
structure Counted (db : Db) : Prop where
  tally : NameGraph.Tally dot dotdot 1 db.graph fun n => (db.usize n .size).getD 0
  decodes : db.Decoded

section steps

variable {db db' : Db} {uid gid : UInt32} {name : String} {t : DbfsTimeSpec} {u : Unit}

/-- No name is one of the root. -/
theorem Counted.ne_root (h : Counted db) {n i : UInt64} (hn : db.IsDir n) (h1 : name ≠ ".")
    (h2 : name ≠ "..") (he : db.entry n name = some i) : i ≠ 1 := by
  rintro rfl
  exact h.tally.unnamed (proper_name h1 h2) (graph_entry hn he)

theorem Counted.only_dots (h : Counted db) {n : UInt64} {size : Nat} (hn : db.IsDir n)
    (hroot : n ≠ 1) (hsize : db.usize n .size = some size) (htwo : size ≤ 2) : db.OnlyDots n := by
  intro k v hv hk
  refine h.tally.only_dots dot_ne_dotdot hn hroot (by rw [hsize]; exact htwo) ?_
  obtain ⟨i, hi⟩ := h.decodes n k v hn hv hk
  rw [Db.graph_edge hn hk, Db.ref, hv, Option.bind_some, hi]
  simp

theorem link_counted {ino new_ino : UInt64} (h : Counted db)
    (htx : link_tx ino new_ino name t db = .Ok (u, db')) (hdir : db.IsDir new_ino)
    (hino : ino ≠ 1) : Counted db' := by
  have hes := link_edits htx hdir
  obtain ⟨size, links, _, hsize, hlt, _, _, hdb⟩ := link_tx_spec htx
  have hsizes : ∀ n, db'.usize n .size =
      if n = new_ino then some (size + 1) else db.usize n .size := by
    intro n
    simp [hdb, Db.has_of_isDir hdir, usize_be hlt]
  refine ⟨?_, hes.decodes h.decodes⟩
  rw [hes.graph]
  refine (h.tally.bind hdir (fun _ => hino) (fun m _ => ?_) (fun _ => ?_)).mono _ fun _ _ => le_rfl
  · rw [hsizes]
    split_ifs with hm
    · rw [hm, hsize]
      exact Nat.le_succ _
    · exact le_rfl
  · rw [hsizes, if_pos rfl, hsize]
    exact le_rfl

theorem unlink_counted {dir : UInt64} (h : Counted db)
    (htx : unlink_tx uid gid dir name none t db = .Ok (u, db')) (hdir : db.IsDir dir)
    (htarget : ∀ i, db.entry dir name = some i → ¬ db.IsDir i) (h1 : name ≠ ".")
    (h2 : name ≠ "..") : Counted db' := by
  have hes := unlink_edits htx hdir htarget
  obtain ⟨_, i, size, links, hi, _, hsize, _, _, hend⟩ := unlink_tx_spec htx
  have hlt : size - 1 < 2 ^ 64 := by
    have := Db.lt_of_usize hsize
    omega
  have hsizes : ∀ n, db.IsDir n → db'.usize n .size =
      if n = dir then some (size - 1) else db.usize n .size := by
    intro n hn
    have hni : n ≠ i := fun e => htarget i hi (e ▸ hn)
    rcases hend with ⟨_, hdb⟩ | ⟨_, _, hdb⟩ <;>
      simp [hdb, hni, Db.has_of_isDir hdir, usize_be hlt]
  refine ⟨?_, hes.decodes h.decodes⟩
  rw [hes.graph]
  refine (h.tally.unbind (proper_name h1 h2) (by rw [graph_entry hdir hi]; simp)
    (fun m hm hne => ?_) ?_).mono _ fun _ _ => le_rfl
  · rw [hsizes m hm, if_neg hne]
  · rw [hsizes dir hdir, if_pos rfl, hsize, Option.getD_some, Option.getD_some]
    omega

theorem rmdir_counted {dir : UInt64} (h : Counted db)
    (htx : rmdir_tx uid gid dir name t db = .Ok (u, db')) (hdir : db.IsDir dir)
    (h1 : name ≠ ".") (h2 : name ≠ "..") : Counted db' := by
  obtain ⟨_, i, size, _, hi, _, _, _, hsize, _, _⟩ := rmdir_tx_spec htx
  have hrem := rmdir_removed htx hi hsize
  refine ⟨?_, hrem.decodes h.decodes⟩
  rw [hrem.graph]
  refine h.tally.removeDir (proper_name h1 h2) (graph_entry hdir hi) (fun m _ hne hmi => ?_)
    (fun hni => ?_)
  · rw [hrem.size m hmi, if_neg hne]
  · rw [hrem.size dir hni, if_pos rfl, hsize, Option.getD_some, Option.getD_some]
    omega

section create

variable [Features] {n dir : UInt64} {permission : DbfsPermission} {target_path : Option String}
  {dev : Option UInt32} {r : UInt32 × DbfsPermission × UInt32 × Nat × Option UInt32}

/-- What create leaves in the directories that are there, whatever the mode. -/
theorem create_reads
    (htx : create_tx n dir name uid gid t permission target_path dev db = .Ok (r, db'))
    (hdir : db.IsDir dir) : ¬ db.Has n ∧ (∀ m, db'.Has m ↔ m = n ∨ db.Has m) ∧
      db'.kind n = DbfsFileType.from permission ∧
      (∀ m, m ≠ n → (db'.IsDir m ↔ db.IsDir m)) ∧
      (∀ m k, m ≠ n → is_data_key k = true →
        db'.get m k = edited db [⟨dir, generate_data_key name, some n⟩] m k) ∧
      ∃ size, db.usize dir .size = some size ∧ ∀ m, m ≠ n →
        db'.usize m .size = if m = dir then some (size + 1) else db.usize m .size := by
  obtain ⟨_, p_gid, p_mode, size, counts, _, hsize, hlt, hnew⟩ := create_tx_spec htx
  obtain ⟨hn, _, hhas, hother, hmode, _, _, _⟩ := new_inode_tx_spec hnew
  refine ⟨by simpa [create_entry] using hn, fun m => by simpa [create_entry] using hhas m, ?_,
    fun m hm => isDir_congr ?_, fun m k hm hk => ?_, size, hsize, fun m hm => ?_⟩
  · rw [Db.kind, hmode, Option.bind_some, DbfsFileType.from_and, new_mode_type,
      ← DbfsFileType.from_and]
  · rw [Db.u16, hother m _ hm]
    simp [create_entry, Db.u16]
  · have hf : ∀ f : Field, k ≠ f.key := fun f => ne_of_is_data_key hk (by simp)
    rw [hother m k hm]
    simp [create_entry, edited, Db.has_of_isDir hdir, hf]
  · rw [Db.usize, hother m _ hm]
    by_cases hmd : m = dir
    · subst hmd
      simp [create_entry, Db.has_of_isDir hdir, usize_be hlt]
    · simp [create_entry, hmd, Db.usize]

theorem create_counted (h : Counted db)
    (htx : create_tx n dir name uid gid t permission target_path dev db = .Ok (r, db'))
    (hdir : db.IsDir dir) (hsized : DbfsFileType.from permission = some .Directory →
      permission &&& DbfsPermission.S_IFMT = DbfsPermission.S_IFDIR) : Counted db' := by
  obtain ⟨hfresh, _, hkind, hdirs, hget, size, hsize, hsizes⟩ := create_reads htx hdir
  have hnd : ¬ db.IsDir n := fun e => hfresh (Db.has_of_isDir e)
  have hold : ∀ {m}, db.IsDir m → m ≠ n := fun hm e => hnd (e ▸ hm)
  have hle : ∀ m, db.IsDir m → (db.usize m .size).getD 0 ≤ (db'.usize m .size).getD 0 := by
    intro m hm
    rw [hsizes m (hold hm)]
    split_ifs with hmd
    · rw [hmd, hsize]
      exact Nat.le_succ _
    · exact le_rfl
  have hnew : (db.usize dir .size).getD 0 + 1 ≤ (db'.usize dir .size).getD 0 := by
    rw [hsizes dir (hold hdir), if_pos rfl, hsize]
    exact le_rfl
  by_cases hd : DbfsFileType.from permission = some .Directory
  · have hty : permission &&& DbfsPermission.S_IFMT = DbfsFileType.Directory.bits := hsized hd
    have hc := create_created hty htx (Db.has_of_isDir hdir)
    have hdots : new_dots permission n dir = [(dot, ino_bytes n), (dotdot, ino_bytes dir)] := by
      rw [new_dots, if_pos ((contains_dir_bit hty).mpr (.inl rfl))]
      rfl
    refine ⟨?_, hc.decodes_dir hdots h.decodes⟩
    rw [hc.graph_dir hdots hdir]
    refine h.tally.addDir dot_ne_dotdot hdir hnd hle hnew ?_
    rw [hc.new_counts.1 rfl]
    exact le_rfl
  · have hes : Edits db db' [⟨dir, generate_data_key name, some n⟩] :=
      { kind := fun m => by
          by_cases hmn : m = n
          · subst hmn
            rw [Db.IsDir, hkind]
            exact ⟨fun e => absurd e hd, fun e => absurd e hnd⟩
          · exact hdirs m hmn
        place := by simp [hdir]
        get := fun m k hm hk => hget m k (hold hm) hk }
    refine ⟨?_, hes.decodes h.decodes⟩
    rw [hes.graph]
    have hroot : n ≠ 1 := fun e => hnd (e ▸ h.tally.root_dir)
    exact (h.tally.bind hdir (fun _ => hroot) hle (fun _ => hnew)).mono _ fun _ _ => le_rfl

end create

section rename

variable {old_dir new_dir : UInt64} {old_name new_name : String} {old : RenameOld}
  {new : RenameNew} {db₁ : Db}

/-- The first half of a move: the target, if rename saw one, is off the new directory. -/
theorem rename_target_counted {new_size : Nat} (h : Counted db)
    (hnew : rename_new_tx uid gid new_dir new_name db = .Ok (new, db'))
    (hnone : new.number = none → db₁ = db ∧ db.usize new_dir .size = some new_size)
    (hsome : ∀ number, new.number = some number → ∃ size, db.usize new_dir .size = some size ∧
      rename_replace_tx new_dir new_name number new.perm size t db = .Ok (new_size, db₁))
    (hnd : db.IsDir new_dir) (h3 : new_name ≠ ".") (h4 : new_name ≠ "..") :
    NameGraph.Tally dot dotdot 1 db₁.graph
        (fun n => if n = new_dir then new_size else (db₁.usize n .size).getD 0) ∧
      db₁.Decoded ∧ ∀ n, db₁.Has n → db₁.u16 n .mode = db.u16 n .mode := by
  rcases hn : new.number with _ | number
  · obtain ⟨rfl, hsize⟩ := hnone hn
    refine ⟨h.tally.mono _ fun n _ => ?_, h.decodes, fun _ _ => rfl⟩
    split_ifs with hnn
    · rw [hnn, hsize]
      exact le_rfl
    · exact le_rfl
  · obtain ⟨size, hsize, hrep⟩ := hsome number hn
    obtain ⟨_, _, _, ⟨hno, _⟩ | ⟨i, hi, hentry, _⟩⟩ := rename_new_tx_spec hnew
    · cases hn.symm.trans hno
    · cases hn.symm.trans hi
      have hedge := graph_entry hnd hentry
      obtain ⟨hpos, rfl, hends⟩ := rename_replace_tx_eq hrep
      -- the target is deleted, or has another link count
      have hends : db₁ = (db.delete new_dir (generate_data_key new_name)).drop number ∨
          ∃ v, db₁ = ((db.delete new_dir (generate_data_key new_name)).put number
            Field.hard_links.key v).put number Field.ctime.key t.to_be_bytes := by
        rcases hends with ⟨_, e⟩ | ⟨_, _, _, e | e⟩
        · exact .inl e
        · exact .inl e
        · exact .inr ⟨_, e⟩
      rcases hends with rfl | ⟨v, rfl⟩
      · have hdrop : Dropped db ((db.delete new_dir (generate_data_key new_name)).drop number)
            new_dir new_name number :=
          ⟨fun n => by simp, fun n hn => by simp [hn], fun n k hn hk => by simp [hn, edited]⟩
        refine ⟨?_, hdrop.decodes h.decodes, fun n hn => hdrop.mode n ((hdrop.has n).mp hn).1⟩
        rw [hdrop.graph]
        refine h.tally.removeDir (proper_name h3 h4) hedge (fun m _ hne hmi => ?_) (fun _ => ?_)
        · simp [hne, hmi]
        · rw [if_pos rfl, hsize, Option.getD_some]
          omega
      · have hes : Edits db (((db.delete new_dir (generate_data_key new_name)).put number
            Field.hard_links.key v).put number Field.ctime.key t.to_be_bytes)
            [⟨new_dir, generate_data_key new_name, none⟩] := by
          refine ⟨fun n => isDir_congr (by simp), by simp [hnd], fun n k _ hk => ?_⟩
          have hf : ∀ f : Field, k ≠ f.key := fun f => ne_of_is_data_key hk (by simp)
          simp [edited, hf]
        refine ⟨?_, hes.decodes h.decodes, fun n _ => by simp⟩
        rw [hes.graph]
        refine (h.tally.unbind (proper_name h3 h4) (by rw [hedge]; simp) (fun m _ hne => ?_)
          ?_).mono _ fun _ _ => le_rfl
        · simp [hne]
        · rw [if_pos rfl, hsize, Option.getD_some]
          omega

/-- The second half: the entry goes to its new place. -/
theorem Moved.counted {old_size new_size : Nat} (hm : Moved db₁ db' old_dir old_name new_dir
      new_name old old_size new_size)
    (htally : NameGraph.Tally dot dotdot 1 db₁.graph
      (fun n => if n = new_dir then new_size else (db₁.usize n .size).getD 0))
    (hdec : db₁.Decoded) (hosize : db₁.usize old_dir .size = some old_size)
    (hentry : (db₁.get old_dir (generate_data_key old_name)).isSome = true)
    (hperm : db₁.u16 old.number .mode = some old.perm) (hroot : old.number ≠ 1)
    (hod : db₁.IsDir old_dir) (hnd : db₁.IsDir new_dir) (h1 : old_name ≠ ".")
    (h2 : old_name ≠ "..") : Counted db' := by
  have hk := proper_name h1 h2
  have hedge : db₁.graph.edge old_dir (generate_data_key old_name) ≠ none := by
    obtain ⟨v, hv⟩ := Option.isSome_iff_exists.mp hentry
    obtain ⟨i, hi⟩ := hdec old_dir _ v hod hv (by simp)
    rw [Db.graph_edge hod (by simp), Db.ref, hv, Option.bind_some, hi]
    simp
  have hpos := htally.size_pos hnd
  rw [if_pos rfl] at hpos
  -- the old name is off its directory, whose size waits for the new one if it is the same
  have hoff : NameGraph.Tally dot dotdot 1
      (db₁.graph.set old_dir (generate_data_key old_name) none)
      (fun n => if n = old_dir then (if n = new_dir then new_size else old_size) - 1
        else if n = new_dir then new_size else (db₁.usize n .size).getD 0) := by
    refine htally.unbind hk hedge (fun m _ hne => by rw [if_neg hne]) ?_
    rw [if_pos rfl]
    split_ifs
    · omega
    · rw [hosize, Option.getD_some]
      omega
  have hon : NameGraph.Tally dot dotdot 1
      ((db₁.graph.set old_dir (generate_data_key old_name) none).set new_dir
        (generate_data_key new_name) (some old.number)) fun n => (db'.usize n .size).getD 0 := by
    refine hoff.bind hnd (fun _ => hroot) (fun m _ => ?_) (fun _ => ?_)
    · rw [hm.size]
      by_cases hmn : m = new_dir
      · subst hmn
        simp only [if_true, Option.getD_some]
        split_ifs <;> omega
      · simp only [if_neg hmn]
        split_ifs <;> exact le_rfl
    · rw [hm.size]
      by_cases hdirs : old_dir = new_dir
      · subst hdirs
        simp only [if_true, Option.getD_some]
        omega
      · simp only [if_neg (Ne.symm hdirs), if_neg hdirs, if_true, Option.getD_some]
        exact le_rfl
  by_cases hd : db₁.IsDir old.number
  · have hes := hm.edits_dir hod hnd hperm hd
    refine ⟨?_, hes.decodes hdec⟩
    rw [hes.graph]
    refine (hon.bind hd (fun e => absurd rfl e.2) (fun _ _ => le_rfl) (fun e => ?_)).mono _
      fun _ _ => le_rfl
    exact absurd e (hon.parent hd hroot)
  · have hes := hm.edits_leaf hod hnd hd
    refine ⟨?_, hes.decodes hdec⟩
    rw [hes.graph]
    exact hon.mono _ fun _ _ => le_rfl

theorem rename_move_counted (h : Counted db) {db₂ db₃ : Db}
    (hold : rename_old_tx uid gid old_dir old_name db = .Ok (old, db₂))
    (hnew : rename_new_tx uid gid new_dir new_name db = .Ok (new, db₃))
    (htx : rename_move_tx old_dir old_name new_dir new_name old new t db = .Ok (u, db'))
    (hod : db.IsDir old_dir) (hnd : db.IsDir new_dir) (h1 : old_name ≠ ".") (h2 : old_name ≠ "..")
    (h3 : new_name ≠ ".") (h4 : new_name ≠ "..") : Counted db' := by
  obtain ⟨_, hentry, _, _, hperm⟩ := rename_old_tx_spec hold
  obtain ⟨db₁, new_size, old_size, hnone, hsome, hkey, hosize, _, hlt, hhas, hhas', rfl⟩ :=
    rename_move_tx_eq htx
  obtain ⟨htally, hdec, hmode⟩ := rename_target_counted h hnew hnone hsome hnd h3 h4
  have hod' : db₁.IsDir old_dir := (isDir_congr (hmode _ (Db.has_of_usize hosize))).mpr hod
  have hnd' : db₁.IsDir new_dir := (isDir_congr (hmode _ hhas)).mpr hnd
  have hfits : (if old_dir = new_dir then new_size else new_size + 1) < 2 ^ 64 := by
    split_ifs with hdirs
    · rcases hn : new.number with _ | number
      · exact Db.lt_of_usize (hnone hn).2
      · obtain ⟨size, hsize, hrep⟩ := hsome number hn
        obtain ⟨_, rfl, _⟩ := rename_replace_tx_eq hrep
        have := Db.lt_of_usize hsize
        omega
    · exact hlt hdirs
  have holt : old_size - 1 < 2 ^ 64 := by
    have := Db.lt_of_usize hosize
    omega
  have hmoved : Moved db₁ (rename_moved db₁ old_dir old_name new_dir new_name old old_size new_size
      t) old_dir old_name new_dir new_name old old_size new_size :=
    rename_moved_moved (Db.has_of_isDir hod') hhas holt hfits hhas'
  exact hmoved.counted htally hdec hosize hkey ((hmode _ hhas').trans hperm)
    (h.ne_root hod h1 h2 hentry) hod' hnd' h1 h2

/-- Edits that give entries other targets. -/
theorem tally_rebinds {g : NameGraph UInt64 Bytes} {size : UInt64 → Nat} {es : List Edit}
    (h : NameGraph.Tally dot dotdot 1 g size) (hes : ∀ e ∈ es, e.dir ∈ g.dir ∧
      g.edge e.dir e.key ≠ none ∧ ∃ i, e.target = some i ∧ (Proper e.key → i ≠ 1)) :
    NameGraph.Tally dot dotdot 1 (Edit.graph g es) size ∧ (Edit.graph g es).dir = g.dir ∧
      ∀ n k, g.edge n k ≠ none → (Edit.graph g es).edge n k ≠ none := by
  induction es with
  | nil => exact ⟨h, rfl, fun _ _ e => e⟩
  | cons e es ih =>
    obtain ⟨hdir, hedge, i, hi, hroot⟩ := hes e List.mem_cons_self
    obtain ⟨ht, hd, hkeep⟩ := ih fun x hx => hes x (List.mem_cons_of_mem _ hx)
    rw [Edit.graph, hi]
    refine ⟨ht.bind (hd ▸ hdir) hroot (fun _ _ => le_rfl) (fun hnone => ?_), hd, fun n k hn => ?_⟩
    · exact absurd hnone (hkeep _ _ hedge)
    · rw [NameGraph.edge_set]
      split_ifs
      · simp
      · exact hkeep n k hn

theorem edited_filter (es : List Edit) {n : UInt64} (hn : db.IsDir n) (k : Bytes) :
    edited db (es.filter fun e => db.IsDir e.dir) n k = edited db es n k := by
  induction es with
  | nil => rfl
  | cons e es ih =>
    by_cases hd : db.IsDir e.dir
    · rw [List.filter_cons_of_pos (by simpa using hd), edited, edited, ih]
    · have hne : n ≠ e.dir := fun h => hd (h ▸ hn)
      rw [List.filter_cons_of_neg (by simpa using hd), edited, if_neg (fun h => hne h.1), ih]

/-- An exchange gives four entries other targets, less those that are in no directory. -/
theorem rename_exchange_counted (h : Counted db) {db₂ db₃ : Db} {number : UInt64}
    (hold : rename_old_tx uid gid old_dir old_name db = .Ok (old, db₂))
    (hnew : rename_new_tx uid gid new_dir new_name db = .Ok (new, db₃))
    (hnumber : new.number = some number)
    (htx : rename_exchange_tx old_dir old_name new_dir new_name old number new.perm t db =
      .Ok (u, db'))
    (hod : db.IsDir old_dir) (hnd : db.IsDir new_dir) (h1 : old_name ≠ ".") (h2 : old_name ≠ "..")
    (h3 : new_name ≠ ".") (h4 : new_name ≠ "..") : Counted db' := by
  obtain ⟨_, hentry, _, _, hperm⟩ := rename_old_tx_spec hold
  have hentry' : db.entry new_dir new_name = some number := by
    obtain ⟨_, _, _, ⟨hno, _⟩ | ⟨i, hi, hentry', _⟩⟩ := rename_new_tx_spec hnew
    · cases hnumber.symm.trans hno
    · cases hnumber.symm.trans hi
      exact hentry'
  obtain ⟨_, hperm', _⟩ := rename_new_tx_target hnew hnumber
  have hdb := rename_exchange_tx_eq htx
  have hes : Edits db db' ([⟨number, dotdot, some old_dir⟩, ⟨old.number, dot, some new_dir⟩,
      ⟨old_dir, generate_data_key old_name, some number⟩,
      ⟨new_dir, generate_data_key new_name, some old.number⟩].filter fun e => db.IsDir e.dir) := by
    refine ⟨fun n => isDir_congr (by simp [hdb, rename_exchanged]), fun e he => ?_,
      fun n k hn hk => ?_⟩
    · obtain ⟨hmem, hd⟩ := List.mem_filter.mp he
      refine ⟨by simpa using hd, ?_⟩
      simp only [List.mem_cons, List.not_mem_nil, or_false] at hmem
      rcases hmem with rfl | rfl | rfl | rfl <;> simp [dot, dotdot]
    · rw [edited_filter _ hn, hdb, rename_exchanged_get (Db.has_of_isDir hod) (Db.has_of_isDir hnd)
        hperm hperm' hn hk]
  refine ⟨?_, hes.decodes h.decodes⟩
  rw [hes.graph]
  refine (tally_rebinds h.tally fun e he => ?_).1.mono _ fun n _ => ?_
  · obtain ⟨hmem, hd⟩ := List.mem_filter.mp he
    have hd : db.IsDir e.dir := by simpa using hd
    have hroot := h.ne_root hod h1 h2 hentry
    have hroot' := h.ne_root hnd h3 h4 hentry'
    simp only [List.mem_cons, List.not_mem_nil, or_false] at hmem
    refine ⟨hd, ?_⟩
    rcases hmem with rfl | rfl | rfl | rfl
    · exact ⟨h.tally.parent hd hroot', old_dir, rfl, fun e => absurd rfl e.2⟩
    · exact ⟨h.tally.self hd, new_dir, rfl, fun e => absurd rfl e.1⟩
    · exact ⟨by rw [graph_entry hod hentry]; simp, number, rfl, fun _ => hroot'⟩
    · exact ⟨by rw [graph_entry hnd hentry']; simp, old.number, rfl, fun _ => hroot⟩
  · rw [hdb]
    simp [rename_exchanged]

/-- A move deletes the bucket of a directory only if its size says that it has its dots alone. -/
theorem rename_move_deletes (h : Counted db) {db₃ : Db} {n : UInt64}
    (hnew : rename_new_tx uid gid new_dir new_name db = .Ok (new, db₃))
    (hfull : new.number.isSome = true → new.perm.contains DbfsPermission.S_IFDIR = true →
      new.size ≤ 2)
    (htx : rename_move_tx old_dir old_name new_dir new_name old new t db = .Ok (u, db'))
    (hnd : db.IsDir new_dir) (h3 : new_name ≠ ".") (h4 : new_name ≠ "..") (hn : db.IsDir n)
    (hgone : ¬ db'.Has n) : db.OnlyDots n := by
  obtain ⟨db₁, new_size, old_size, hnone, hsome, _, _, _, _, _, _, rfl⟩ := rename_move_tx_eq htx
  have hgone : ¬ db₁.Has n := fun e => hgone (by simpa [rename_moved] using e)
  rcases hnumber : new.number with _ | number
  · obtain ⟨rfl, _⟩ := hnone hnumber
    exact absurd (Db.has_of_isDir hn) hgone
  · obtain ⟨_, hperm, hsize, _⟩ := rename_new_tx_target hnew hnumber
    obtain ⟨_, _, hrep⟩ := hsome number hnumber
    -- only the bucket of the target can be gone
    have hni : n = number := by
      by_contra hne
      obtain ⟨_, _, ⟨_, rfl⟩ | ⟨_, _, _, rfl | rfl⟩⟩ := rename_replace_tx_eq hrep
      · exact hgone (by simp [hne, Db.has_of_isDir hn])
      · exact hgone (by simp [hne, Db.has_of_isDir hn])
      · exact hgone (by simp [Db.has_of_isDir hn])
    subst hni
    have hbit : new.perm.contains DbfsPermission.S_IFDIR = true := contains_of_isDir hperm hn
    have hentry : db.entry new_dir new_name = some n := by
      obtain ⟨_, _, _, ⟨hno, _⟩ | ⟨i, hi, hentry, _⟩⟩ := rename_new_tx_spec hnew
      · cases hnumber.symm.trans hno
      · cases hnumber.symm.trans hi
        exact hentry
    exact h.only_dots hn (h.ne_root hnd h3 h4 hentry) hsize (hfull (by simp [hnumber]) hbit)

end rename

end steps

/-! ## Every run -/

section runs

variable [Features] {db : Db}

/-- A call deletes no directory with entries, and one that is sized right leaves the sizes ahead
of the entries. -/
theorem call_counted (h : Counted db) (call : NameCall) (uid gid : UInt32) (number : UInt64)
    (table : OrdMap UInt64 ReadDirInfo) (hplaced : call.Placed db) :
    (call.Sized → Counted (call.run uid gid ⟨db, number, table⟩).2.db) ∧ ∀ n, db.IsDir n →
      ¬ (call.run uid gid ⟨db, number, table⟩).2.db.Has n → db.OnlyDots n := by
  have hsame : ∀ {db'}, db' = db →
      (call.Sized → Counted db') ∧ ∀ n, db.IsDir n → ¬ db'.Has n → db.OnlyDots n := by
    rintro _ rfl
    exact ⟨fun _ => h, fun n hn hgone => absurd (Db.has_of_isDir hn) hgone⟩
  cases call with
  | create dir name t permission target_path dev =>
    rw [NameCall.run, Fs.discard_state]
    rcases create_db dir permission target_path dev ⟨db, number, table⟩ with he | ⟨r, htx⟩
    · exact hsame he
    · refine ⟨fun hsized => create_counted h htx hplaced.1 hsized, fun n hn hgone => ?_⟩
      obtain ⟨_, hhas, _⟩ := create_reads htx hplaced.1
      exact absurd ((hhas n).mpr (.inr (Db.has_of_isDir hn))) hgone
  | link ino new_ino name t =>
    rw [NameCall.run, Fs.discard_state]
    rcases link_db ino new_ino ⟨db, number, table⟩ with he | htx
    · exact hsame he
    · refine ⟨fun hsized => link_counted h htx hplaced.1 hsized, fun n hn hgone => ?_⟩
      exact absurd (Db.has_of_isDir (((link_edits htx hplaced.1).kind n).mpr hn)) hgone
  | unlink dir name t =>
    obtain ⟨hdir, h1, h2, htarget⟩ := hplaced
    rcases Fs.write_state (unlink_tx uid gid dir name none t) ⟨db, number, table⟩ with
      he | ⟨_, db', htx, he⟩
    · exact hsame (congrArg Sys.db he)
    · rw [NameCall.run, dbfs_common_unlink, he]
      refine ⟨fun _ => unlink_counted h htx hdir htarget h1 h2, fun n hn hgone => ?_⟩
      exact absurd (Db.has_of_isDir (((unlink_edits htx hdir htarget).kind n).mpr hn)) hgone
  | rmdir dir name t =>
    obtain ⟨hdir, h1, h2, _⟩ := hplaced
    rcases Fs.write_state (rmdir_tx uid gid dir name t) ⟨db, number, table⟩ with
      he | ⟨_, db', htx, he⟩
    · exact hsame (congrArg Sys.db he)
    · rw [NameCall.run, dbfs_common_rmdir, he]
      refine ⟨fun _ => rmdir_counted h htx hdir h1 h2, fun n hn hgone => ?_⟩
      obtain ⟨_, i, size, i_size, hi, _, hisize, htwo, hsize, _⟩ := rmdir_tx_spec htx
      have hni : n = i := by
        by_contra hne
        exact hgone (((rmdir_removed htx hi hsize).has n).mpr ⟨hne, Db.has_of_isDir hn⟩)
      subst hni
      exact h.only_dots hn (h.ne_root hdir h1 h2 hi) hisize htwo
  | rename old_dir old_name new_dir new_name flags t =>
    obtain ⟨hod, hnd, h1, h2, h3, h4⟩ := hplaced
    rw [NameCall.run]
    rcases rename_state old_dir new_dir old_name new_name flags ⟨db, number, table⟩ with
      he | ⟨old, new, db', ⟨_, hold⟩, ⟨_, hnew⟩, he, ⟨_, i, hi, htx⟩ | ⟨_, hfull, htx⟩⟩
    · exact hsame (congrArg Sys.db he)
    · rw [he]
      refine ⟨fun _ => rename_exchange_counted h hold hnew hi htx hod hnd h1 h2 h3 h4,
        fun n hn hgone => ?_⟩
      have hhas : db'.Has n ↔ db.Has n := by
        rw [rename_exchange_tx_eq htx]
        simp [rename_exchanged]
      exact absurd (hhas.mpr (Db.has_of_isDir hn)) hgone
    · rw [he]
      exact ⟨fun _ => rename_move_counted h hold hnew htx hod hnd h1 h2 h3 h4,
        fun n hn hgone => rename_move_deletes h hnew hfull htx hnd h3 h4 hn hgone⟩

theorem root_db_counted (super_blk : Bucket) (uid gid : UInt32) (ctime : DbfsTimeSpec) :
    Counted (root_db super_blk uid gid ctime) := by
  obtain ⟨hnames, _⟩ := root_db_names super_blk uid gid ctime
  have hdir := root_db_isDir super_blk uid gid ctime
  refine ⟨⟨hnames.wf.finite, hnames.wf.edge_dir, hnames.wf.root_dir, fun {n k} hk he => ?_,
    fun hn => ?_, fun {n} hn hroot => absurd ((hdir n).mp hn) hroot, fun {n} hn => ?_⟩,
    hnames.decodes⟩
  · exact hnames.wf.ne_root hk he hnames.wf.root_dir rfl
  · rw [hnames.wf.self hn]
    simp
  · rw [hnames.size n hn]
    exact le_rfl

theorem PlacedRun.counted (h : PlacedRun NameCall.Sized db) : Counted db := by
  obtain ⟨super_blk, uid, gid, ctime, hrun⟩ := h
  induction hrun with
  | refl => exact root_db_counted super_blk uid gid ctime
  | tail _ hstep ih =>
    obtain ⟨call, uid, gid, number, table, hplaced, hsized⟩ := hstep
    exact (call_counted ih call uid gid number table hplaced).1 hsized

/-- No call of such a run deletes the bucket of a directory that has entries besides its dots. -/
theorem deleted_directories_empty (h : PlacedRun NameCall.Sized db) (call : NameCall)
    (uid gid : UInt32) (number : UInt64) (table : OrdMap UInt64 ReadDirInfo)
    (hplaced : call.Placed db) (n : UInt64) (hn : db.IsDir n)
    (hgone : ¬ (call.run uid gid ⟨db, number, table⟩).2.db.Has n) : db.OnlyDots n :=
  (call_counted h.counted call uid gid number table hplaced).2 n hn hgone

end runs

/-! ## A root that is deleted -/

section sample

attribute [local instance] sli512_features

theorem PlacedRun.after {ok : NameCall → Prop} {calls : List NameCall}
    (h : PlacedRun ok (after_calls calls)) (call : NameCall)
    (hplaced : call.Placed (after_calls calls)) (hok : ok call) :
    PlacedRun ok (after_calls (call :: calls)) := by
  obtain ⟨super_blk, uid, gid, ctime, hrun⟩ := h
  exact ⟨super_blk, uid, gid, ctime, hrun.tail (.call call 0 0 _ ∅ hplaced hok)⟩

theorem mkdir_d_placed {ok : NameCall → Prop} (hok : ok mkdir_d) :
    PlacedRun ok (after_calls [mkdir_d]) := by
  have h : PlacedRun ok (after_calls []) := ⟨∅, 0, 0, .default, .refl⟩
  exact h.after mkdir_d ⟨by decide +kernel, by decide, by decide⟩ hok

def link_root : NameCall := .link 1 2 "r" .default

/-- The root with one directory in it has size 2. Once it has a name in that directory, rmdir
takes it for empty. -/
theorem root_is_deleted :
    PlacedRun (fun _ => True) (after_calls [link_root, mkdir_d]) ∧
      (NameCall.rmdir 2 "r" .default).Placed (after_calls [link_root, mkdir_d]) ∧
      (after_calls [link_root, mkdir_d]).IsDir 1 ∧
      ¬ (after_calls [.rmdir 2 "r" .default, link_root, mkdir_d]).Has 1 ∧
      (after_calls [link_root, mkdir_d]).entry 1 "d" = some 2 ∧
      ¬ (after_calls [link_root, mkdir_d]).OnlyDots 1 := by
  have hentry : (after_calls [link_root, mkdir_d]).entry 2 "r" = some 1 := by decide +kernel
  have hget : (after_calls [link_root, mkdir_d]).get 1 (generate_data_key "d") =
      some (ino_bytes 2) := by decide +kernel
  refine ⟨(mkdir_d_placed trivial).after link_root
    ⟨by decide +kernel, by decide, by decide⟩ trivial,
    ⟨by decide +kernel, by decide, by decide, fun i hi => ?_⟩, by decide +kernel, by decide +kernel,
    by decide +kernel, fun h => ?_⟩
  · cases hentry.symm.trans hi
    decide +kernel
  · exact absurd (h _ _ hget (by simp)) (by decide)

/-- The directory that the first rmdir may delete has its dots alone. -/
theorem first_directory_empty : (after_calls [mkdir_d]).OnlyDots 2 := by
  have hentry : (after_calls [mkdir_d]).entry 1 "d" = some 2 := by decide +kernel
  refine deleted_directories_empty (mkdir_d_placed (fun _ => by decide)) (.rmdir 1 "d" .default)
    0 0 3 ∅ ⟨by decide +kernel, by decide, by decide, fun i hi => ?_⟩ 2 (by decide +kernel)
    (by decide +kernel)
  cases hentry.symm.trans hi
  decide +kernel

end sample

end dbfs2
