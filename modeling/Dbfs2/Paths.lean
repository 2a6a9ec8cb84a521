-- Paths from the root. A client finds an inode by looking up one name after the other. As long
-- as no rename puts a directory inside itself, every inode of every run has such a path and every
-- directory has just one; a rename that does so is not refused, and loses the directory.
import Dbfs2.TreeRuns

namespace dbfs2

open common Tx inode

/-! ## Looking up a path -/

/-- Looks up the names of a path, each in the directory found before. -/
def lookup_path : UInt64 → List String → Fs UInt64
  | n, [] => pure n
  | n, name :: path => do
    let attr ← dbfs_common_attr n
    Fs.ensure (attr.kind == .Directory) .Other
    let attr ← dbfs_common_lookup n name
    lookup_path attr.ino path

/-- A path without dots. -/
def NoDots (path : List String) : Prop := ∀ name ∈ path, name ≠ "." ∧ name ≠ ".."

/-- The keys of a path. -/
def path_keys (path : List String) : List Bytes := path.map generate_data_key

theorem properPath_keys {path : List String} (h : NoDots path) :
    NameGraph.ProperPath dot dotdot (path_keys path) := by
  intro k hk
  obtain ⟨name, hname, rfl⟩ := List.mem_map.mp hk
  exact proper_name (h name hname).1 (h name hname).2

theorem noDots_of_properPath {path : List String}
    (h : NameGraph.ProperPath dot dotdot (path_keys path)) : NoDots path := by
  intro name hname
  obtain ⟨h1, h2⟩ := h _ (List.mem_map_of_mem hname)
  exact ⟨fun e => h1 (by rw [e]; rfl), fun e => h2 (by rw [e]; rfl)⟩

section walks

variable [Features] {s : Sys} {t : FileTree}

/-- A lookup of a path follows the graph of names. -/
theorem lookup_path_walk (h : ShowsTree s.db t) {n i : UInt64} (hn : n ∈ t.names.node)
    (path : List String) :
    lookup_path n path s = (.Ok i, s) ↔ t.names.walk n (path_keys path) = some i := by
  induction path generalizing n with
  | nil =>
    rw [lookup_path, path_keys, List.map_nil, NameGraph.walk, Fs.pure_ok]
    simp [eq_comm]
  | cons name path ih =>
    obtain ⟨attr, hattr, htree⟩ := h.attr (h.node.mp hn)
    rw [lookup_path, Fs.bind_eq, hattr]
    simp only [Fs.bind_ensure, path_keys, List.map_cons, NameGraph.walk]
    split_ifs with hkind
    · have hdir := htree.dir.mp (eq_of_beq hkind)
      rw [Fs.bind_eq]
      rcases he : t.names.edge n (generate_data_key name) with _ | j
      · rw [h.lookup_free hdir he]
        simp
      · obtain ⟨attr', hlookup, htree'⟩ := h.lookup he
        have hj : j ∈ t.names.node := by
          rw [← h.graph] at he ⊢
          exact h.names.wf.target he
        simp only [hlookup, htree'.ino, Option.bind_some]
        exact ih hj
    · have hfree : t.names.edge n (generate_data_key name) = none := by
        rw [← h.graph]
        rcases he : s.db.graph.edge n (generate_data_key name) with _ | j
        · rfl
        · refine absurd (htree.dir.mpr ?_) (fun e => hkind (beq_of_eq e))
          rw [← h.graph]
          exact h.names.wf.edge_dir he
      simp [hfree]

/-- Every path of keys is a path of names. -/
theorem ShowsTree.path_of_walk (h : ShowsTree s.db t) {n i : UInt64} {p : List Bytes}
    (hp : t.names.walk n p = some i) : ∃ path, p = path_keys path := by
  induction p generalizing n with
  | nil => exact ⟨[], rfl⟩
  | cons k p ih =>
    obtain ⟨j, he, hrest⟩ := Option.bind_eq_some_iff.mp hp
    rw [← h.graph] at he
    obtain ⟨_, hk, href⟩ := Db.graph_edge_some he
    obtain ⟨v, hv, _⟩ := Option.bind_eq_some_iff.mp href
    obtain ⟨name, rfl⟩ := h.named n k v hv hk
    obtain ⟨path, rfl⟩ := ih hrest
    exact ⟨name :: path, rfl⟩

/-- A path without dots leads from one inode to another where the one lies below the other. -/
theorem below_iff_path (h : ShowsTree s.db t) {n i : UInt64} (hn : n ∈ t.names.node) :
    NameGraph.Below dot dotdot t.names n i ↔
      ∃ path, NoDots path ∧ lookup_path n path s = (.Ok i, s) := by
  rw [NameGraph.below_iff_walk]
  constructor
  · rintro ⟨p, hproper, hp⟩
    obtain ⟨path, rfl⟩ := h.path_of_walk hp
    exact ⟨path, noDots_of_properPath hproper, (lookup_path_walk h hn path).mpr hp⟩
  · rintro ⟨path, hdots, hp⟩
    exact ⟨path_keys path, properPath_keys hdots, (lookup_path_walk h hn path).mp hp⟩

end walks

/-! ## The tree stays rooted -/

/-- A rename puts no directory inside itself. -/
def inode.NameCall.Outside (g : NameGraph UInt64 Bytes) : NameCall → Prop
  | rename old_dir old_name new_dir _ _ _ => ∀ i,
      g.edge old_dir (generate_data_key old_name) = some i → i ∈ g.dir →
        ¬ NameGraph.Below dot dotdot g i new_dir
  | _ => True

def Call.Outside [Features] (t : FileTree) : Call → Prop
  | naming call => call.Outside t.names
  | _ => True

section rooted

variable {g : NameGraph UInt64 Bytes} {call : NameCall}

/-- What a naming call does to the graph keeps it a tree. -/
theorem rooted_on [Features] (number : UInt64) (hwf : NameGraph.WellFormed dot dotdot 1 g)
    (hr : NameGraph.Rooted dot dotdot 1 g) (hallowed : call.Allowed g)
    (hready : call.Ready number g) (hout : call.Outside g) :
    NameGraph.Rooted dot dotdot 1 (call.on number g) := by
  cases call with
  | create dir name c_time permission target_path dev =>
    obtain ⟨hdir, h1, h2, hfree, _⟩ := hallowed
    rw [NameCall.on]
    split_ifs
    · exact hr.addDir hwf hdir (proper_name h1 h2) hfree hready
    · exact hr.name hfree fun e => hready (hwf.dir_node e)
  | link ino new_ino name ctime =>
    obtain ⟨_, hino, _, _, hfree, _⟩ := hallowed
    exact hr.name hfree hino
  | unlink dir name c_time =>
    rw [NameCall.on]
    split
    · exact hr
    · rename_i i he
      exact hr.unname hwf he (hallowed.2.2.2 i he)
  | rmdir p_ino name c_time =>
    obtain ⟨_, h1, h2, htarget⟩ := hallowed
    rw [NameCall.on]
    split
    · exact hr
    · rename_i i he
      exact hr.removeDir hwf dot_ne_dotdot (proper_name h1 h2) he (htarget i he)
        (hready i he (htarget i he))
  | rename old_dir old_name new_dir new_name flags ctime =>
    obtain ⟨_, hnd, _, _, h3, h4, hfree, _⟩ := hallowed
    rw [NameCall.on]
    split
    · exact hr
    · rename_i i he
      exact hr.move hwf he (proper_name h3 h4) hnd hfree fun hi => hout i he hi

variable [Features] {s : Sys} {t : FileTree}

theorem ShowsTree.wf (h : ShowsTree s.db t) : NameGraph.WellFormed dot dotdot 1 t.names := by
  rw [← h.graph]
  exact h.names.wf

/-- The step: a call that keeps directories outside of themselves keeps the tree rooted. -/
theorem ShowsTree.rooted (h : ShowsTree s.db t) (hr : NameGraph.Rooted dot dotdot 1 t.names)
    {c : Call} (hc : c.Allowed t) (hout : c.Outside t) (uid gid : UInt32) :
    NameGraph.Rooted dot dotdot 1 (c.seen uid gid s t).names := by
  unfold Call.seen
  rcases hrun : c.run uid gid s with ⟨r, s'⟩
  rcases r with _ | e | _
  · cases c with
    | naming call =>
      obtain ⟨hvfs, _⟩ := h.allowed hc
      have hready := (ok_commits hvfs hrun).ready h.names hvfs
      rw [h.graph] at hready
      exact rooted_on _ h.wf hr hc hready hout
    | unlink_ino dir name ino c_time =>
      obtain ⟨_, _, _, he, hleaf⟩ := hc
      simp only [Call.on, FileTree.with_names, NameCall.on, he]
      exact hr.unname h.wf he hleaf
    | _ => exact hr
  · exact hr
  · exact hr

omit [Features] in
theorem root_rooted : NameGraph.Rooted dot dotdot 1 root_tree.names where
  dirs := by
    rintro n rfl
    exact .refl
  leaves hi hd := absurd hi hd

theorem TreeRun.rooted (h : TreeRun (fun t c => c.Outside t) s t) :
    NameGraph.Rooted dot dotdot 1 t.names := by
  induction h with
  | root => exact root_rooted
  | call c uid gid hrun hc hout ih => exact hrun.shows.rooted ih hc hout uid gid
  | statics _ _ _ ih => exact ih

/-- Every inode of such a run has a path from the root, and a directory has no other. -/
theorem every_inode_has_a_path (h : TreeRun (fun t c => c.Outside t) s t) :
    (∀ n, s.db.Has n → ∃ path, NoDots path ∧ lookup_path 1 path s = (.Ok n, s)) ∧
    ∀ n path path', s.db.IsDir n → NoDots path → NoDots path' →
      lookup_path 1 path s = (.Ok n, s) → lookup_path 1 path' s = (.Ok n, s) → path = path' := by
  have hshows := h.shows
  have hroot : 1 ∈ t.names.node := hshows.wf.dir_node hshows.wf.root_dir
  refine ⟨fun n hn => ?_, fun n path path' hn hp hp' hwalk hwalk' => ?_⟩
  · exact (below_iff_path hshows hroot).mp (h.rooted.below hshows.wf (hshows.node.mpr hn))
  · have hkeys := hshows.wf.path_unique (hshows.isDir.mpr hn) (properPath_keys hp)
      (properPath_keys hp') ((lookup_path_walk hshows hroot path).mp hwalk)
      ((lookup_path_walk hshows hroot path').mp hwalk')
    exact List.map_injective_iff.mpr (fun a b => generate_data_key_injective) hkeys

/-- A rename to a free name is not refused for its place. It keeps every inode within reach, but
for a directory that it puts inside itself. -/
theorem rename_keeps_paths_iff {old_dir new_dir : UInt64} {old_name new_name : String}
    {flags uid gid : UInt32} {ctime : DbfsTimeSpec} {s' : Sys}
    (h : TreeRun (fun t c => c.Outside t) s t)
    (hc : (NameCall.rename old_dir old_name new_dir new_name flags ctime).Allowed t.names)
    (hok : dbfs_common_rename uid gid old_dir old_name new_dir new_name flags ctime s =
      (.Ok (), s')) :
    (∀ n, s'.db.Has n → ∃ path, NoDots path ∧ lookup_path 1 path s' = (.Ok n, s')) ↔
      ¬ ∃ i path, s.db.entry old_dir old_name = some i ∧ s.db.IsDir i ∧ NoDots path ∧
        lookup_path i path s = (.Ok new_dir, s) := by
  have hshows := h.shows
  have hrun : (Call.naming (.rename old_dir old_name new_dir new_name flags ctime)).run uid gid s =
    (.Ok (), s') := hok
  have hshows' := hshows.naming hc hrun
  have hroot : 1 ∈ (NameCall.on s.DBFS_INODE_NUMBER t.names
      (.rename old_dir old_name new_dir new_name flags ctime)).node :=
    hshows'.wf.dir_node hshows'.wf.root_dir
  have hod := hshows.isDir.mp hc.1
  constructor
  · rintro hall ⟨i, path, hi, hd, hdots, hpath⟩
    have he := (hshows.entry hod old_name).trans hi
    have hid := hshows.isDir.mpr hd
    have hbelow := (below_iff_path hshows (hshows.wf.dir_node hid)).mpr ⟨path, hdots, hpath⟩
    have hcut := hshows.wf.cut_off (generate_data_key new_name)
      (proper_name hc.2.2.1 hc.2.2.2.1) he hid hc.2.1 hbelow
    have hon : NameCall.on s.DBFS_INODE_NUMBER t.names
        (.rename old_dir old_name new_dir new_name flags ctime) =
        t.names.move dotdot old_dir (generate_data_key old_name) new_dir
          (generate_data_key new_name) i := by
      rw [NameCall.on, he]
    have hnode : i ∈ (NameCall.on s.DBFS_INODE_NUMBER t.names
        (.rename old_dir old_name new_dir new_name flags ctime)).node := by
      rw [hon, NameGraph.move_node]
      exact hshows.wf.dir_node hid
    rw [← hon] at hcut
    exact hcut ((below_iff_path hshows' hroot).mpr (hall i (hshows'.node.mp hnode)))
  · intro hout n hn
    have hrooted := rooted_on s.DBFS_INODE_NUMBER hshows.wf h.rooted hc trivial
      fun i he hd hbelow => hout ?_
    · exact (below_iff_path hshows' hroot).mp
        (NameGraph.Rooted.below hshows'.wf hrooted (hshows'.node.mpr hn))
    · obtain ⟨path, hdots, hpath⟩ := (below_iff_path hshows (hshows.wf.dir_node hd)).mp hbelow
      rw [hshows.entry hod] at he
      exact ⟨i, path, he, hshows.isDir.mp hd, hdots, hpath⟩

end rooted

/-! ## A directory inside itself -/

section sample

attribute [local instance] sli512_features

def one_directory : Sys := ((Call.naming mkdir_d).run 0 0 ⟨root_db ∅ 0 0 .default, 2, ∅⟩).2

theorem one_directory_run :
    ∃ t, TreeRun (fun t c => c.Outside t) one_directory t := by
  refine ⟨_, .call (.naming mkdir_d) 0 0 (.root ∅ 0 0 .default 2 ∅) ?_ trivial⟩
  refine ⟨rfl, by decide, by decide, ?_, ?_, .Directory, by decide, by decide, by simp⟩
  · have hne : generate_data_key "d" ≠ dot := by decide
    simp [root_tree, hne]
  · rw [(root_shows ∅ 0 0 .default).size_eq (by decide +kernel) (x := 1) (by decide +kernel)]
    decide

theorem a_directory_has_a_path : one_directory.db.Has 2 ∧
    ∃ path, NoDots path ∧ lookup_path 1 path one_directory = (.Ok 2, one_directory) := by
  obtain ⟨t, hrun⟩ := one_directory_run
  exact ⟨by decide +kernel, (every_inode_has_a_path hrun).1 2 (by decide +kernel)⟩

theorem a_directory_inside_itself :
    ∃ s', dbfs_common_rename 0 0 1 "d" 2 "e" 0 .default one_directory = (.Ok (), s') ∧
      ¬ ∀ n, s'.db.Has n → ∃ path, NoDots path ∧ lookup_path 1 path s' = (.Ok n, s') := by
  obtain ⟨t, hrun⟩ := one_directory_run
  have hshows := hrun.shows
  have h1 : one_directory.db.IsDir 1 := by decide +kernel
  have h2 : one_directory.db.IsDir 2 := by decide +kernel
  have hfree : one_directory.db.entry 2 "e" = none := by decide +kernel
  have hallowed : (NameCall.rename 1 "d" 2 "e" 0 .default).Allowed t.names := by
    refine ⟨hshows.isDir.mpr h1, hshows.isDir.mpr h2, by decide, by decide, by decide, by decide,
      (hshows.entry h2 "e").trans hfree, ?_, rfl⟩
    rw [hshows.size_eq h2 (x := 2) (by decide +kernel)]
    decide
  have hok : (dbfs_common_rename 0 0 1 "d" 2 "e" 0 .default one_directory).1 = .Ok () := by
    decide +kernel
  refine ⟨_, Prod.ext hok rfl, fun hall => ?_⟩
  exact (rename_keeps_paths_iff hrun hallowed (Prod.ext hok rfl)).mp hall
    ⟨2, [], by decide +kernel, h2, by simp [NoDots], rfl⟩

end sample

end dbfs2
