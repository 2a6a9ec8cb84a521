-- The inodes in memory. rvfs keeps an inode of its own for each number it has seen, and every
-- hook counts there by hand what its transaction counts in the database.
import Dbfs2.Access
import Dbfs2.Ops

namespace dbfs2

open common Tx inode fs_type

namespace Fs

variable {α β : Type} {msg m : String} {x : Fs α} {g : α → Fs (StrResult β)} {s s' : Sys}

theorem or_str_ok {b : β} : or_str msg x g s = (.Ok (.ok b), s') ↔
    ∃ a s₁, x s = (.Ok a, s₁) ∧ g a s₁ = (.Ok (.ok b), s') := by
  unfold or_str
  rcases x s with ⟨a | e | _, s₁⟩ <;> simp

theorem read_err {e : DbfsError} {x : Tx α} :
    read x s = (.Err e, s') ↔ x s.db = .Err e ∧ s' = s := by
  unfold read
  rcases x s.db with ⟨b, db₁⟩ | e' | _ <;> simp [eq_comm]

theorem or_str_error (hg : ∀ a s₁ s₂ m, x s = (.Ok a, s₁) → g a s₁ ≠ (.Ok (.error m), s₂))
    (h : or_str msg x g s = (.Ok (.error m), s')) : ∃ e, x s = (.Err e, s') := by
  unfold or_str at h
  rcases hx : x s with ⟨a | e | _, s₁⟩
  · rw [hx] at h
    exact absurd h (hg a s₁ s' m hx)
  · rw [hx] at h
    cases h
    exact ⟨e, rfl⟩
  · rw [hx] at h
    cases h

end Fs

theorem Tx.err_of_map_err {α : Type} {e e' : DbfsError} {x : Tx α} {db : Db}
    (h : map_err e x db = .Err e') : ∃ e₁, x db = .Err e₁ := by
  unfold map_err at h
  rcases hx : x db with ⟨b, db₁⟩ | e₁ | _
  · rw [hx] at h
    cases h
  · exact ⟨e₁, rfl⟩
  · rw [hx] at h
    cases h

/-! ## The inodes that are kept -/

/-- The database and the inodes in memory, by number. -/
structure Cached where
  sys : Sys
  inodes : UInt64 → Inode
  numbered (n : UInt64) : (inodes n).number = n

namespace Cached

def keep (v : Cached) (i : Inode) : Cached where
  sys := v.sys
  inodes n := if n = i.number then i else v.inodes n
  numbered n := by
    split_ifs with h
    · exact h.symm
    · exact v.numbered n

/-- Runs a hook and keeps the inodes that it changed. -/
def call {α : Type} (v : Cached) (hook : Fs (StrResult α)) (changed : α → List Inode) :
    DbfsResult (StrResult Unit) × Cached :=
  match hook v.sys with
  | (.Ok (.ok a), s) => (.Ok (.ok ()), (changed a).foldl keep { v with sys := s })
  | (.Ok (.error msg), s) => (.Ok (.error msg), { v with sys := s })
  | (.Err e, s) => (.Err e, { v with sys := s })
  | (.Panic, s) => (.Panic, { v with sys := s })

variable {α : Type} {v v' : Cached} {hook : Fs (StrResult α)} {changed : α → List Inode}

theorem call_ok (h : v.call hook changed = (.Ok (.ok ()), v')) :
    ∃ a s, hook v.sys = (.Ok (.ok a), s) ∧ v' = (changed a).foldl keep { v with sys := s } := by
  unfold call at h
  split at h <;> cases h
  exact ⟨_, _, by assumption, rfl⟩

/-- What comes after the call gives no error of its own. -/
theorem call_error {γ : Type} {msg m : String} {x : Fs γ} {g : γ → Fs (StrResult α)}
    (hg : ∀ a s₁ s₂ m, x v.sys = (.Ok a, s₁) → g a s₁ ≠ (.Ok (.error m), s₂))
    (h : v.call (Fs.or_str m x g) changed = (.Ok (.error msg), v')) :
    ∃ e s, x v.sys = (.Err e, s) ∧ v' = { v with sys := s } := by
  unfold call at h
  split at h <;> cases h
  rename_i herr
  obtain ⟨e, hx⟩ := Fs.or_str_error hg herr
  exact ⟨e, _, hx, rfl⟩

end Cached

/-! ## The hooks on directories -/

/-- The hooks that change a directory, with what rvfs answers when it is asked for an inode. -/
inductive DirHook where
  | create (tmp_inode : TmpInode) (dir : UInt64) (name : String)
  | mkdir (tmp_inode : TmpInode) (dir : UInt64) (name : String)
  | symlink (tmp_inode : TmpInode) (dir : UInt64) (name target : String)
  | link (old dir : UInt64) (name : String)
  | unlink (dir : UInt64) (name : String) (ino : UInt64)
  | rmdir (dir : UInt64) (name : String)

namespace DirHook

def run [Features] : DirHook → Cached → DbfsResult (StrResult Unit) × Cached
  | create tmp_inode dir name, v =>
    v.call (dbfs_create tmp_inode (v.inodes dir) name) fun r => [r.2, r.1]
  | mkdir tmp_inode dir name, v =>
    v.call (dbfs_mkdir tmp_inode (v.inodes dir) name) fun r => [r.2, r.1]
  | symlink tmp_inode dir name target, v =>
    v.call (dbfs_symlink tmp_inode (v.inodes dir) name target) fun r => [r.2, r.1]
  | link old dir name, v =>
    v.call (dbfs_link (v.inodes old) (v.inodes dir) name) fun r => [r.1, r.2]
  | unlink dir name ino, v => v.call (dbfs_unlink (v.inodes dir) name (v.inodes ino)) fun i => [i]
  | rmdir dir name, v => v.call (dbfs_rmdir (v.inodes dir) name) fun d => [d]

/-- The directory that the hook is given. -/
def dir : DirHook → UInt64
  | create _ dir _ | mkdir _ dir _ | symlink _ dir .. | link _ dir _ | unlink dir .. |
    rmdir dir _ => dir

/-- What rvfs sees to: the directory is one, unlink is for what is no directory, and rmdir for a
directory that is not one of the dots. -/
def Placed (db : Db) : DirHook → Prop
  | create _ dir _ | mkdir _ dir _ | symlink _ dir .. | link _ dir _ => db.IsDir dir
  | unlink dir name ino => db.IsDir dir ∧ db.entry dir name = some ino ∧ ¬ db.IsDir ino
  | rmdir dir name => db.IsDir dir ∧ name ≠ "." ∧ name ≠ ".." ∧
      ∃ i, db.entry dir name = some i ∧ db.IsDir i

/-- By how much the stored size of the directory changes. -/
def stored : DirHook → Int
  | create .. | mkdir .. | symlink .. | link .. => 1
  | unlink .. | rmdir .. => -1

/-- The hooks that count in memory too. -/
def Counts : DirHook → Prop
  | unlink .. => False
  | _ => True

instance (hook : DirHook) : Decidable hook.Counts := by
  cases hook <;> unfold Counts <;> infer_instance

/-- rvfs does not refuse the inode in memory for the next number. -/
def Granted (v : Cached) : DirHook → Prop
  | create tmp_inode .. | mkdir tmp_inode .. | symlink tmp_inode .. =>
    ∀ msg, tmp_inode.make v.sys.DBFS_INODE_NUMBER ≠ some (.error msg)
  | _ => True

end DirHook

/-! ## What a hook does to the sizes -/

/-- The inodes that stay have their sizes, but for `d` more in directory `dir`. -/
def SizedBy (dir : UInt64) (d : Int) (db db' : Db) : Prop :=
  ∀ n (size : Nat), db.usize n .size = some size → db'.Has n →
    ∃ size' : Nat, db'.usize n .size = some size' ∧ (size' : Int) = size + if n = dir then d else 0

/-- And so have those in memory. -/
def KeptBy (dir : UInt64) (d : Int) (v v' : Cached) : Prop :=
  ∀ n, v.sys.db.Has n →
    ((v'.inodes n).file_size : Int) = (v.inodes n).file_size + if n = dir then d else 0

theorem sized_by {db db' : Db} {dir : UInt64} {size new : Nat} {d : Int}
    (hsize : db.usize dir .size = some size) (hnew : (new : Int) = size + d)
    (hdir : db'.Has dir → db'.usize dir .size = some new)
    (hrest : ∀ n, n ≠ dir → db.Has n → db'.Has n → db'.usize n .size = db.usize n .size) :
    SizedBy dir d db db' := by
  intro n size' hn hstays
  by_cases hne : n = dir
  · subst hne
    cases hsize.symm.trans hn
    exact ⟨new, hdir hstays, by rw [if_pos rfl, hnew]⟩
  · refine ⟨size', ?_, by rw [if_neg hne, add_zero]⟩
    rw [hrest n hne (Db.has_of_usize hn) hstays, hn]

section sizes

variable {s s' : Sys} {dir : UInt64} {name : String} {uid gid : UInt32} {t : DbfsTimeSpec}

theorem create_sized [Features] {permission : DbfsPermission} {target_path : Option String}
    {dev : Option UInt32} {attr : DbfsAttr}
    (h : dbfs_common_create dir name uid gid t permission target_path dev s = (.Ok attr, s')) :
    ¬ s.db.Has attr.ino ∧ SizedBy dir 1 s.db s'.db ∧ ∀ n, s.db.Has n → s'.db.Has n := by
  obtain ⟨hino, r, htx⟩ := create_spec h
  obtain ⟨_, p_gid, p_mode, size, counts, _, hsize, hlt, hnew⟩ := create_tx_spec htx
  obtain ⟨hfresh, _, hhas, hget, _⟩ := new_inode_tx_spec hnew
  have hfresh' : ¬ s.db.Has s.DBFS_INODE_NUMBER := by simpa [create_entry] using hfresh
  have hentry (n : UInt64) (hn : s.db.Has n) : s'.db.usize n .size =
      (create_entry s.db dir name s.DBFS_INODE_NUMBER size t).usize n .size := by
    have hne : n ≠ s.DBFS_INODE_NUMBER := by
      rintro rfl
      exact hfresh' hn
    rw [Db.usize, Db.usize, hget n _ hne]
  refine ⟨hino ▸ hfresh', ?_, fun n hn => (hhas n).mpr (.inr ?_)⟩
  · have hdir := Db.has_of_usize hsize
    refine sized_by hsize (Nat.cast_succ size) (fun _ => ?_) fun n hne hn _ => ?_
    · rw [hentry dir hdir, create_entry]
      simp [hdir, usize_be hlt]
    · rw [hentry n hn, create_entry]
      simp [hne]
  · simpa [create_entry] using hn

theorem link_sized {ino : UInt64} {attr : DbfsAttr}
    (h : dbfs_common_link uid gid ino dir name t s = (.Ok attr, s')) :
    SizedBy dir 1 s.db s'.db ∧ ∀ n, s.db.Has n → s'.db.Has n := by
  obtain ⟨_, db', htx, rfl⟩ := link_spec h
  obtain ⟨size, links, _, hsize, hlt, _, _, rfl⟩ := link_tx_spec htx
  refine ⟨sized_by hsize (Nat.cast_succ size) (fun _ => ?_) fun n hne _ _ => ?_, fun n hn => ?_⟩
  · simp [Db.has_of_usize hsize, usize_be hlt]
  · simp [hne]
  · simpa using hn

/-- An unlink that is told the inode, whatever the entry says. -/
theorem unlink_sized {ino : UInt64} {u : Unit}
    (h : dbfs_common_unlink uid gid dir name (some ino) t s = (.Ok u, s')) :
    SizedBy dir (-1) s.db s'.db ∧ ∀ n, s.db.Has n → n ≠ ino → s'.db.Has n := by
  rw [dbfs_common_unlink, Fs.write_ok] at h
  obtain ⟨db', htx, rfl⟩ := h
  obtain ⟨_, _, size, links, hino, _, hsize, hpos, _, hend⟩ := unlink_tx_spec htx
  cases hino
  have hlt : size - 1 < 2 ^ 64 := by
    have := Db.lt_of_usize hsize
    omega
  have hless : ((size - 1 : Nat) : Int) = size + -1 := by omega
  have hdir := Db.has_of_usize hsize
  rcases hend with ⟨_, rfl⟩ | ⟨_, _, rfl⟩
  · refine ⟨sized_by hsize hless (fun hstays => ?_) fun n hne _ hstays => ?_, fun n hn hne => ?_⟩
    · simp [((Db.has_drop ..).mp hstays).1, hdir, usize_be hlt]
    · simp [((Db.has_drop ..).mp hstays).1, hne]
    · simp [hn, hne]
  · refine ⟨sized_by hsize hless (fun _ => ?_) fun n hne _ _ => ?_, fun n hn _ => ?_⟩
    · simp [hdir, usize_be hlt]
    · simp [hne]
    · simp [hn]

theorem rmdir_sized {u : Unit} (h : dbfs_common_rmdir uid gid dir name t s = (.Ok u, s')) :
    SizedBy dir (-1) s.db s'.db := by
  rw [dbfs_common_rmdir, Fs.write_ok] at h
  obtain ⟨db', htx, rfl⟩ := h
  obtain ⟨_, i, size, _, _, _, _, _, hsize, hpos, rfl⟩ := rmdir_tx_spec htx
  have hlt : size - 1 < 2 ^ 64 := by
    have := Db.lt_of_usize hsize
    omega
  have hless : ((size - 1 : Nat) : Int) = size + -1 := by omega
  refine sized_by hsize hless (fun hstays => ?_) fun n hne _ hstays => ?_
  · simp [((Db.has_drop ..).mp hstays).1, Db.has_of_usize hsize, usize_be hlt]
  · simp [((Db.has_drop ..).mp hstays).1, hne]

/-- The directory of a proper rmdir stays. -/
theorem rmdir_stays {u : Unit} (hnames : Names s.db) (hdir : s.db.IsDir dir)
    (h1 : name ≠ ".") (h2 : name ≠ "..")
    (htarget : ∃ i, s.db.entry dir name = some i ∧ s.db.IsDir i)
    (h : dbfs_common_rmdir uid gid dir name t s = (.Ok u, s')) : s'.db.Has dir := by
  rw [dbfs_common_rmdir, Fs.write_ok] at h
  obtain ⟨db', htx, rfl⟩ := h
  obtain ⟨_, i, size, i_size, hi, _, hisize, hle, _, _, rfl⟩ := rmdir_tx_spec htx
  obtain ⟨j, hj, hjd⟩ := htarget
  cases hi.symm.trans hj
  have hne : dir ≠ i := by
    rintro rfl
    have hedge := graph_entry hdir hi
    have htwo : s.db.graph.size dir ≤ 2 := by
      have := hnames.size dir hdir
      rw [hisize] at this
      cases this
      exact hle
    exact hnames.wf.only_dots dot_ne_dotdot (proper_name h1 h2) hedge hdir htwo
      (proper_name h1 h2) hedge
  simp [hne, Db.has_of_isDir hdir]

end sizes

section hooks

variable [Features] {v v' : Cached} {dir : UInt64} {name : String}

omit [Features] in
theorem keep_file_size (v : Cached) (i : Inode) (n : UInt64) :
    ((v.keep i).inodes n).file_size =
      if n = i.number then i.file_size else (v.inodes n).file_size :=
  apply_ite Inode.file_size ..

omit [Features] in
theorem grow_eq {i i' : Inode} (h : i.grow = some i') :
    i' = { i with file_size := i.file_size + 1 } := by
  unfold Inode.grow at h
  split_ifs at h
  exact (Option.some.inj h).symm

omit [Features] in
theorem shrink_eq {i i' : Inode} (h : i.shrink = some i') :
    1 ≤ i.file_size ∧ i' = { i with file_size := i.file_size - 1 } := by
  unfold Inode.shrink at h
  split_ifs at h with hpos
  exact ⟨hpos, (Option.some.inj h).symm⟩

omit [Features] in
theorem link_eq {i i' : Inode} (h : i.link = some i') :
    i' = { i with hard_links := i.hard_links + 1 } := by
  unfold Inode.link at h
  split_ifs at h
  exact (Option.some.inj h).symm

omit [Features] in
theorem unlink_eq {i i' : Inode} (h : i.unlink = some i') :
    i' = { i with hard_links := i.hard_links - 1 } := by
  unfold Inode.unlink at h
  split_ifs at h
  exact (Option.some.inj h).symm

omit [Features] in
theorem rvfs_created_ok {tmp_inode : TmpInode} {i i' n_inode : Inode} {attr : DbfsAttr}
    {s s' : Sys} (h : rvfs_created tmp_inode i attr s = (.Ok (.ok (i', n_inode)), s')) :
    tmp_inode.make attr.ino = some (.ok n_inode) ∧ i.grow = some i' ∧ s' = s := by
  obtain ⟨r, _, hr, hrest⟩ := Fs.bind_ok.mp h
  obtain ⟨hmake, rfl⟩ := Fs.unwrap_ok.mp hr
  rcases r with msg | n
  · cases hrest
  · obtain ⟨dir, _, hdir, hlast⟩ := Fs.bind_ok.mp hrest
    obtain ⟨hgrow, rfl⟩ := Fs.unwrap_ok.mp hdir
    cases hlast
    exact ⟨hmake, hgrow, rfl⟩

/-- The three hooks that make an inode. -/
theorem made_done {tmp_inode : TmpInode} {m : InodeMode} {target_path : Option String}
    (h : v.call (dbfs_rvfs_create tmp_inode (v.inodes dir) name m target_path)
      (fun r => [r.2, r.1]) = (.Ok (.ok ()), v')) :
    SizedBy dir 1 v.sys.db v'.sys.db ∧ KeptBy dir 1 v v' ∧
      ∀ n, v.sys.db.Has n → v'.sys.db.Has n := by
  obtain ⟨⟨dir', n_inode⟩, s, hcall, rfl⟩ := Cached.call_ok h
  rw [dbfs_rvfs_create, Fs.or_str_ok] at hcall
  obtain ⟨attr, s₁, hcreate, hrest⟩ := hcall
  obtain ⟨hmake, hgrow, rfl⟩ := rvfs_created_ok hrest
  obtain ⟨hfresh, hsized, hhas⟩ := create_sized hcreate
  rw [v.numbered] at hsized
  refine ⟨hsized, fun n hn => ?_, hhas⟩
  have hne : n ≠ n_inode.number := by
    rw [tmp_inode.numbered _ _ hmake]
    exact fun e => hfresh (e ▸ hn)
  simp only [List.foldl_cons, List.foldl_nil, keep_file_size, grow_eq hgrow, v.numbered,
    if_neg hne]
  split_ifs with hdir
  · simp [hdir]
  · simp

omit [Features] in
theorem link_done {old : UInt64}
    (h : v.call (dbfs_link (v.inodes old) (v.inodes dir) name) (fun r => [r.1, r.2]) =
      (.Ok (.ok ()), v')) :
    SizedBy dir 1 v.sys.db v'.sys.db ∧ KeptBy dir 1 v v' ∧
      ∀ n, v.sys.db.Has n → v'.sys.db.Has n := by
  obtain ⟨r, s, hcall, rfl⟩ := Cached.call_ok h
  rw [dbfs_link, Fs.or_str_ok] at hcall
  obtain ⟨attr, s₁, hlink, hrest⟩ := hcall
  simp only [Fs.bind_ok, Fs.unwrap_ok, Fs.pure_ok, Except.ok.injEq] at hrest
  obtain ⟨old', _, ⟨hold, rfl⟩, dir', _, ⟨hgrow, rfl⟩, rfl, rfl⟩ := hrest
  obtain ⟨hsized, hhas⟩ := link_sized hlink
  rw [v.numbered] at hsized
  refine ⟨hsized, fun n hn => ?_, hhas⟩
  simp only [List.foldl_cons, List.foldl_nil, keep_file_size, grow_eq hgrow, link_eq hold,
    v.numbered]
  split_ifs with hdir hn
  · simp [hdir]
  · simp [hn]
  · simp

omit [Features] in
theorem unlink_done {ino : UInt64}
    (h : v.call (dbfs_unlink (v.inodes dir) name (v.inodes ino)) (fun i => [i]) =
      (.Ok (.ok ()), v')) :
    SizedBy dir (-1) v.sys.db v'.sys.db ∧ KeptBy dir 0 v v' ∧
      ∀ n, v.sys.db.Has n → n ≠ ino → v'.sys.db.Has n := by
  obtain ⟨r, s, hcall, rfl⟩ := Cached.call_ok h
  rw [dbfs_unlink, Fs.or_str_ok] at hcall
  obtain ⟨_, s₁, hunlink, hrest⟩ := hcall
  simp only [Fs.bind_ok, Fs.unwrap_ok, Fs.pure_ok, Except.ok.injEq] at hrest
  obtain ⟨ino', _, ⟨hino, rfl⟩, rfl, rfl⟩ := hrest
  rw [v.numbered, v.numbered] at hunlink
  obtain ⟨hsized, hhas⟩ := unlink_sized hunlink
  refine ⟨hsized, fun n hn => ?_, hhas⟩
  simp only [List.foldl_cons, List.foldl_nil, keep_file_size, unlink_eq hino, v.numbered, ite_self,
    add_zero]
  split_ifs with hn
  · rw [hn]
  · rfl

omit [Features] in
theorem rmdir_done (h : v.call (dbfs_rmdir (v.inodes dir) name) (fun d => [d]) =
      (.Ok (.ok ()), v')) :
    SizedBy dir (-1) v.sys.db v'.sys.db ∧ KeptBy dir (-1) v v' ∧
      ∃ u, dbfs_common_rmdir 0 0 dir name .default v.sys = (.Ok u, v'.sys) := by
  obtain ⟨r, s, hcall, rfl⟩ := Cached.call_ok h
  rw [dbfs_rmdir, Fs.or_str_ok] at hcall
  obtain ⟨u, s₁, hrmdir, hrest⟩ := hcall
  simp only [Fs.bind_ok, Fs.unwrap_ok, Fs.pure_ok, Except.ok.injEq] at hrest
  obtain ⟨dir', _, ⟨hshrink, rfl⟩, rfl, rfl⟩ := hrest
  rw [v.numbered] at hrmdir
  obtain ⟨hpos, rfl⟩ := shrink_eq hshrink
  refine ⟨rmdir_sized hrmdir, fun n hn => ?_, u, hrmdir⟩
  simp only [List.foldl_cons, List.foldl_nil, keep_file_size, v.numbered]
  split_ifs with hdir
  · subst hdir
    omega
  · simp

/-- What a hook does that succeeds: unlink is the one that does not count in memory. -/
theorem hook_done {hook : DirHook} (h : hook.run v = (.Ok (.ok ()), v')) :
    SizedBy hook.dir hook.stored v.sys.db v'.sys.db ∧
      KeptBy hook.dir (if hook.Counts then hook.stored else 0) v v' := by
  cases hook with
  | create tmp_inode dir name =>
    obtain ⟨hsized, hkept, _⟩ := made_done h
    exact ⟨hsized, hkept⟩
  | mkdir tmp_inode dir name =>
    obtain ⟨hsized, hkept, _⟩ := made_done h
    exact ⟨hsized, hkept⟩
  | symlink tmp_inode dir name target =>
    obtain ⟨hsized, hkept, _⟩ := made_done h
    exact ⟨hsized, hkept⟩
  | link old dir name =>
    obtain ⟨hsized, hkept, _⟩ := link_done h
    exact ⟨hsized, hkept⟩
  | unlink dir name ino =>
    obtain ⟨hsized, hkept, _⟩ := unlink_done h
    exact ⟨hsized, hkept⟩
  | rmdir dir name =>
    obtain ⟨hsized, hkept, _⟩ := rmdir_done h
    exact ⟨hsized, hkept⟩

/-- The directory of a hook is still there after it. -/
theorem hook_stays {hook : DirHook} (hnames : Names v.sys.db) (hplaced : hook.Placed v.sys.db)
    (h : hook.run v = (.Ok (.ok ()), v')) : v'.sys.db.Has hook.dir := by
  cases hook with
  | create tmp_inode dir name => exact (made_done h).2.2 dir (Db.has_of_isDir hplaced)
  | mkdir tmp_inode dir name => exact (made_done h).2.2 dir (Db.has_of_isDir hplaced)
  | symlink tmp_inode dir name target => exact (made_done h).2.2 dir (Db.has_of_isDir hplaced)
  | link old dir name => exact (link_done h).2.2 dir (Db.has_of_isDir hplaced)
  | unlink dir name ino =>
    refine (unlink_done h).2.2 dir (Db.has_of_isDir hplaced.1) ?_
    rintro rfl
    exact hplaced.2.2 hplaced.1
  | rmdir dir name =>
    obtain ⟨hdir, h1, h2, htarget⟩ := hplaced
    obtain ⟨_, _, u, hrmdir⟩ := rmdir_done h
    exact rmdir_stays hnames hdir h1 h2 htarget hrmdir

omit [Features] in
/-- The hooks end with a reply that is no error. -/
theorem no_error {β γ : Type} {o : Option γ} {g : γ → β} {s₁ s₂ : Sys} {m : String} :
    (do let a ← Fs.unwrap o; pure (.ok (g a)) : Fs (StrResult β)) s₁ ≠ (.Ok (.error m), s₂) := by
  simp

theorem create_err {uid gid : UInt32} {t : DbfsTimeSpec} {permission : DbfsPermission}
    {target_path : Option String} {dev : Option UInt32} {s s' : Sys} {e : DbfsError}
    (h : dbfs_common_create dir name uid gid t permission target_path dev s = (.Err e, s')) :
    s'.db = s.db := by
  unfold dbfs_common_create at h
  change (Fs.write (create_tx s.DBFS_INODE_NUMBER dir name uid gid t permission target_path dev)
    >>= _) { s with DBFS_INODE_NUMBER := s.DBFS_INODE_NUMBER + 1 } = _ at h
  rw [Fs.bind_write] at h
  split at h
  · rcases hkind : DbfsFileType.from permission with _ | kind
    · simp [hkind, Fs.bind_eq, Fs.unwrap, DbfsResult.unwrap] at h
    · rw [hkind] at h
      cases h
  · cases h
    rfl
  · cases h

omit [Features] in
/-- The attributes that link reads after its commit are there. -/
theorem link_err {uid gid : UInt32} {ino : UInt64} {t : DbfsTimeSpec} {s s' : Sys} {e : DbfsError}
    (h : dbfs_common_link uid gid ino dir name t s = (.Err e, s')) : s' = s := by
  rw [dbfs_common_link, dbfs_common_attr, Fs.map_err_read, Fs.bind_read_err] at h
  rcases h with ⟨_, rfl⟩ | ⟨attr, _, _, h⟩
  · rfl
  · rw [Fs.bind_ensure] at h
    split_ifs at h
    · rw [Fs.bind_write] at h
      split at h
      · rename_i u db' htx
        obtain ⟨_, _, hino, _, _, _, _, rfl⟩ := link_tx_spec htx
        rw [dbfs_common_attr, Fs.map_err_read, Fs.read_err] at h
        obtain ⟨e', hattr⟩ := Tx.err_of_map_err h.1
        exact absurd hattr (attr_tx_no_err (by simpa using hino) e')
      · cases h
        rfl
      · cases h
    · cases h
      rfl

/-- A create that rvfs does not refuse gives no error after its commit. -/
theorem created_no_error {tmp_inode : TmpInode} {i : Inode} {uid gid : UInt32} {t : DbfsTimeSpec}
    {permission : DbfsPermission} {target_path : Option String} {dev : Option UInt32}
    {attr : DbfsAttr} {s s₁ s₂ : Sys} {msg : String}
    (hgranted : ∀ msg, tmp_inode.make s.DBFS_INODE_NUMBER ≠ some (.error msg))
    (hcreate : dbfs_common_create dir name uid gid t permission target_path dev s =
      (.Ok attr, s₁)) : rvfs_created tmp_inode i attr s₁ ≠ (.Ok (.error msg), s₂) := by
  obtain ⟨hino, _⟩ := create_spec hcreate
  rw [← hino] at hgranted
  intro h
  unfold rvfs_created at h
  rcases hmake : tmp_inode.make attr.ino with _ | msg' | n_inode
  · simp [hmake, Fs.bind_ok] at h
  · exact hgranted msg' hmake
  · simp [hmake, Fs.bind_ok] at h

theorem made_failed {tmp_inode : TmpInode} {m : InodeMode} {target_path : Option String}
    {msg : String} {changed : Inode × Inode → List Inode}
    (hgranted : ∀ msg, tmp_inode.make v.sys.DBFS_INODE_NUMBER ≠ some (.error msg))
    (h : v.call (dbfs_rvfs_create tmp_inode (v.inodes dir) name m target_path) changed =
      (.Ok (.error msg), v')) : ∃ s : Sys, s.db = v.sys.db ∧ v' = { v with sys := s } := by
  obtain ⟨e, s, herr, rfl⟩ :=
    Cached.call_error (fun _ _ _ _ hcreate => created_no_error hgranted hcreate) h
  exact ⟨s, create_err herr, rfl⟩

/-- A hook that gives an error has done nothing, unless rvfs refused the inode in memory. -/
theorem hook_failed {hook : DirHook} {msg : String} (hgranted : hook.Granted v)
    (h : hook.run v = (.Ok (.error msg), v')) :
    v'.sys.db = v.sys.db ∧ v'.inodes = v.inodes := by
  obtain ⟨s, hstate, rfl⟩ : ∃ s : Sys, s.db = v.sys.db ∧ v' = { v with sys := s } := by
    cases hook with
    | create tmp_inode dir name => exact made_failed hgranted h
    | mkdir tmp_inode dir name => exact made_failed hgranted h
    | symlink tmp_inode dir name target => exact made_failed hgranted h
    | link old dir name =>
      obtain ⟨e, s, herr, rfl⟩ := Cached.call_error (fun _ _ _ _ _ => by simp [Fs.bind_ok]) h
      exact ⟨s, by rw [link_err herr], rfl⟩
    | unlink dir name ino =>
      obtain ⟨e, s, herr, rfl⟩ := Cached.call_error (fun _ _ _ _ _ => no_error) h
      exact ⟨s, by rw [(Fs.write_err.mp herr).2], rfl⟩
    | rmdir dir name =>
      obtain ⟨e, s, herr, rfl⟩ := Cached.call_error (fun _ _ _ _ _ => no_error) h
      exact ⟨s, by rw [(Fs.write_err.mp herr).2], rfl⟩
  exact ⟨hstate, rfl⟩

end hooks

/-! ## Runs of hooks -/

/-- In memory and in the database the size of the inode changes by the same. -/
def Follows (v v' : Cached) (n : UInt64) : Prop :=
  ∃ size size' : Nat, v.sys.db.usize n .size = some size ∧ v'.sys.db.usize n .size = some size' ∧
    ((v'.inodes n).file_size : Int) - (v.inodes n).file_size = (size' : Int) - size

/-- The size in memory is the one that is stored. -/
def InStep (v : Cached) (n : UInt64) : Prop :=
  v.sys.db.usize n .size = some (v.inodes n).file_size

section runs

variable [Features]

/-- A hook of the kind that returns, with an error or without, while inode `n` stays. -/
inductive HookStep (ok : Cached → DirHook → Prop) (n : UInt64) (v v' : Cached) : Prop
  | returned (hook : DirHook) (r : StrResult Unit) (hok : ok v hook)
      (hrun : hook.run v = (.Ok r, v')) (hstays : v'.sys.db.Has n)

/-- Any row of such hooks. -/
def HookRun (ok : Cached → DirHook → Prop) (n : UInt64) : Cached → Cached → Prop :=
  Relation.ReflTransGen (HookStep ok n)

/-- The hook counts in memory, and rvfs makes the inode that it asks for. -/
def Completes (v : Cached) (hook : DirHook) : Prop := hook.Counts ∧ hook.Granted v

theorem hook_follows_iff {v v' : Cached} {hook : DirHook} (hnames : Names v.sys.db)
    (hplaced : hook.Placed v.sys.db) (h : hook.run v = (.Ok (.ok ()), v')) :
    Follows v v' hook.dir ↔ hook.Counts := by
  obtain ⟨hsized, hkept⟩ := hook_done h
  have hdir : v.sys.db.IsDir hook.dir := by
    cases hook <;> first | exact hplaced | exact hplaced.1
  have hsize := hnames.size _ hdir
  obtain ⟨size', hsize', hstored⟩ := hsized _ _ hsize (hook_stays hnames hplaced h)
  have hmem := hkept _ (Db.has_of_isDir hdir)
  rw [if_pos rfl] at hstored hmem
  -- the stored size never stays as it is
  have hne : hook.stored ≠ 0 := by cases hook <;> simp [DirHook.stored]
  constructor
  · rintro ⟨a, b, ha, hb, hdiff⟩
    cases hsize.symm.trans ha
    cases hsize'.symm.trans hb
    by_contra hcounts
    rw [if_neg hcounts] at hmem
    omega
  · intro hcounts
    rw [if_pos hcounts] at hmem
    exact ⟨_, size', hsize, hsize', by omega⟩

theorem HookStep.in_step {n : UInt64} {v v' : Cached} (h : HookStep Completes n v v')
    (hin : InStep v n) : InStep v' n := by
  obtain ⟨hook, r, ⟨hcounts, hgranted⟩, hrun, hstays⟩ := h
  rcases r with msg | _
  · obtain ⟨hdb, hinodes⟩ := hook_failed hgranted hrun
    rw [InStep, hdb, hinodes]
    exact hin
  · obtain ⟨hsized, hkept⟩ := hook_done hrun
    obtain ⟨size', hsize', hstored⟩ := hsized n _ hin hstays
    have hmem := hkept n (Db.has_of_usize hin)
    rw [if_pos hcounts] at hmem
    have hsame : size' = (v'.inodes n).file_size := by omega
    rw [InStep, hsize', hsame]

theorem HookRun.in_step {n : UInt64} {v v' : Cached} (h : HookRun Completes n v v')
    (hin : InStep v n) : InStep v' n := by
  induction h with
  | refl => exact hin
  | tail _ hstep ih => exact hstep.in_step ih

/-- Every hook but unlink counts in memory what it counts in the database, so that the two stay
equal in every directory over any run of these in which rvfs refuses no inode. -/
theorem directory_sizes_follow (v v' : Cached) :
    (∀ hook : DirHook, Names v.sys.db → hook.Placed v.sys.db → hook.run v = (.Ok (.ok ()), v') →
      (Follows v v' hook.dir ↔ hook.Counts)) ∧
    ∀ n, HookRun Completes n v v' → InStep v n → InStep v' n :=
  ⟨fun _ hnames hplaced h => hook_follows_iff hnames hplaced h, fun _ h hin => h.in_step hin⟩

end runs

/-! ## A file taken away, and a directory made -/

section sample

attribute [local instance] sli512_features

def create_file : NameCall :=
  .create 1 "f" .default (permission_from_mode .S_FILE) none none

/-- A file in the root, and the size of the root in memory. -/
def cached_file : Cached where
  sys := ⟨after_calls [create_file], 3, ∅⟩
  inodes n := ⟨n, if n = 1 then 2 else 0, 1⟩
  numbered _ := rfl

theorem cached_file_names : Names cached_file.sys.db :=
  ((after_no_calls fun _ => True).after create_file ⟨by decide +kernel, by decide, by decide,
    by decide +kernel, .RegularFile, by decide⟩ trivial).names.1

def after_unlink : Cached := ((DirHook.unlink 1 "f" 2).run cached_file).2

def after_mkdir : Cached := ((DirHook.mkdir .always 1 "d").run cached_file).2

/-- After the unlink the root has one entry, and two in memory. -/
theorem unlink_is_not_counted :
    Names cached_file.sys.db ∧ InStep cached_file 1 ∧
      (DirHook.unlink 1 "f" 2).Placed cached_file.sys.db ∧
      (DirHook.unlink 1 "f" 2).run cached_file = (.Ok (.ok ()), after_unlink) ∧
      after_unlink.sys.db.usize 1 .size = some 1 ∧ (after_unlink.inodes 1).file_size = 2 ∧
      ¬ Follows cached_file after_unlink 1 := by
  have hsize : cached_file.sys.db.usize 1 .size = some 2 := by decide +kernel
  have hsize' : after_unlink.sys.db.usize 1 .size = some 1 := by decide +kernel
  have hmem : (after_unlink.inodes 1).file_size = 2 := by decide +kernel
  refine ⟨cached_file_names, hsize, ⟨by decide +kernel, by decide +kernel, by decide +kernel⟩,
    Prod.ext (by decide +kernel) rfl, hsize', hmem, ?_⟩
  rintro ⟨a, b, ha, hb, hdiff⟩
  cases hsize.symm.trans ha
  cases hsize'.symm.trans hb
  rw [hmem] at hdiff
  exact absurd hdiff (by decide)

/-- After the mkdir the root has three entries in both. -/
theorem mkdir_is_counted : Follows cached_file after_mkdir 1 ∧ InStep after_mkdir 1 := by
  have hrun : (DirHook.mkdir .always 1 "d").run cached_file = (.Ok (.ok ()), after_mkdir) :=
    Prod.ext (by decide +kernel) rfl
  have hdir : cached_file.sys.db.IsDir 1 := by decide +kernel
  have hin : InStep cached_file 1 := by
    have hsize : cached_file.sys.db.usize 1 .size = some 2 := by decide +kernel
    exact hsize
  obtain ⟨hstep, hruns⟩ := directory_sizes_follow cached_file after_mkdir
  refine ⟨(hstep (.mkdir .always 1 "d") cached_file_names hdir hrun).mpr trivial,
    hruns 1 (.single ?_) hin⟩
  exact .returned (.mkdir .always 1 "d") (.ok ()) ⟨trivial, fun msg h => by cases h⟩ hrun
    (by decide +kernel)

end sample

end dbfs2
