-- Rename with the exchange flag. It swaps two names as long as both inodes are no directories
-- and the new directory has the sticky bit: elsewhere it finds no target, and of a directory it
-- writes the entry for itself where it should write the parent entry.
import Dbfs2.Moves

namespace dbfs2

open common Tx inode

/-! ## An atomic exchange -/

/-- Among the bindings of the directories, those of `i` and `j` have changed places, with the
parent entries of directories; no size and no link count has changed. -/
structure Exchanges (db db' : Db) (old_dir : UInt64) (old_name : String) (new_dir : UInt64)
    (new_name : String) (i j : UInt64) : Prop where
  old : db'.entry old_dir old_name = some j
  new : db'.entry new_dir new_name = some i
  others (n : UInt64) (name : String) : db.IsDir n → ¬ (n = old_dir ∧ name = old_name) →
    ¬ (n = new_dir ∧ name = new_name) → ¬ ((n = i ∨ n = j) ∧ name = "..") →
    db'.entry n name = db.entry n name
  old_dots : db.IsDir i → db'.entry i "." = some i ∧ db'.entry i ".." = some new_dir
  new_dots : db.IsDir j → db'.entry j "." = some j ∧ db'.entry j ".." = some old_dir
  sizes (n : UInt64) : db'.usize n .size = db.usize n .size
  links (n : UInt64) : db'.u32 n .hard_links = db.u32 n .hard_links

/-- The same exchange is possible once more, and whoever makes it restores the entries. -/
structure ExchangesBack (s s' : Sys) (old_dir : UInt64) (old_name : String) (new_dir : UInt64)
    (new_name : String) (flags : UInt32) : Prop where
  allowed (gid : UInt32) (t : DbfsTimeSpec) : ∃ s'',
    dbfs_common_rename 0 gid old_dir old_name new_dir new_name flags t s' = (.Ok (), s'')
  restores (uid gid : UInt32) (t : DbfsTimeSpec) (s'' : Sys) :
    dbfs_common_rename uid gid old_dir old_name new_dir new_name flags t s' = (.Ok (), s'') →
    SameNames s.db s''.db

/-- The exchange succeeds, does what it says and is its own inverse. -/
def ExchangesAtomically (s : Sys) (uid gid : UInt32) (old_dir : UInt64) (old_name : String)
    (new_dir : UInt64) (new_name : String) (flags : UInt32) (t : DbfsTimeSpec) (i j : UInt64) :
    Prop :=
  ∃ s', dbfs_common_rename uid gid old_dir old_name new_dir new_name flags t s = (.Ok (), s') ∧
    Exchanges s.db s'.db old_dir old_name new_dir new_name i j ∧
    ExchangesBack s s' old_dir old_name new_dir new_name flags

/-- The checks for both directories, and that the fields of both inodes can be read. -/
structure ExchangeChecks (db : Db) (uid gid : UInt32) (old_dir i new_dir j : UInt64) : Prop where
  out : db.Grants old_dir uid gid
  take : db.MayTake old_dir i uid
  into : db.Grants new_dir uid gid
  drop : db.MayTake new_dir j uid
  has_gid (n : UInt64) : n = i ∨ n = j → (db.u32 n .gid).isSome = true
  has_mode (n : UInt64) : n = i ∨ n = j → (db.u16 n .mode).isSome = true
  has_size (n : UInt64) : n = i ∨ n = j → (db.usize n .size).isSome = true

/-- Both names stand in `d`, and `d` is its own parent, which no directory of a tree is: then
there is no parent entry to update. -/
structure OwnParent (db : Db) (old_dir : UInt64) (old_name : String) (new_dir : UInt64)
    (new_name : String) (i j d : UInt64) : Prop where
  old : old_dir = d
  new : new_dir = d
  parent : db.entry d ".." = some d
  names : i ≠ j → (old_name ≠ "." ∧ old_name ≠ "..") ∧ new_name ≠ "." ∧ new_name ≠ ".."

/-- When the exchange is one. -/
structure Exchangeable (db : Db) (old_dir : UInt64) (old_name : String) (new_dir : UInt64)
    (new_name : String) (i j : UInt64) : Prop where
  sticky : db.Sticky new_dir
  old : db.IsDir i → OwnParent db old_dir old_name new_dir new_name i j i
  new : db.IsDir j → OwnParent db old_dir old_name new_dir new_name i j j

/-! ## What the exchange does to the entries -/

/-- The effect of the exchange: `.` of the first inode gets the new directory, `..` of the second
one the old directory. -/
structure Swapped (db db' : Db) (old_dir : UInt64) (old_name : String) (new_dir : UInt64)
    (new_name : String) (i j : UInt64) : Prop where
  owners : SameOwners db db'
  sizes (n : UInt64) : db'.usize n .size = db.usize n .size
  links (n : UInt64) : db'.u32 n .hard_links = db.u32 n .hard_links
  entry (n : UInt64) (name : String) : db.IsDir n → db'.entry n name =
    if n = j ∧ name = ".." then some old_dir
    else if n = i ∧ name = "." then some new_dir
    else if n = old_dir ∧ name = old_name then some j
    else if n = new_dir ∧ name = new_name then some i else db.entry n name

/-! In a tree of names the dots lead to directories. -/

theorem Names.dir_of_dots {db : Db} (h : Names db) {n i : UInt64} {name : String}
    (hn : db.IsDir n) (hi : db.entry n name = some i) (hname : ¬ (name ≠ "." ∧ name ≠ "..")) :
    db.IsDir i := by
  refine h.wf.dots_dir (fun hk => hname ?_) (graph_entry hn hi)
  exact ⟨fun e => hk.1 (e ▸ rfl), fun e => hk.2 (e ▸ rfl)⟩

section swapped

variable {db db' : Db} {old_dir new_dir i j : UInt64} {old_name new_name : String}
  {old : RenameOld} {perm : DbfsPermission} {t : DbfsTimeSpec}

theorem rename_exchanged_swapped (hod : db.Has old_dir) (hnd : db.Has new_dir)
    (hi : db.u16 old.number .mode = some old.perm) (hj : db.u16 j .mode = some perm) :
    Swapped db (rename_exchanged db old_dir old_name new_dir new_name old j perm t) old_dir old_name
      new_dir new_name old.number j where
  owners := ⟨fun n => by simp [rename_exchanged], fun n => by simp [rename_exchanged],
    fun n => by simp [rename_exchanged]⟩
  sizes n := by simp [rename_exchanged]
  links n := by simp [rename_exchanged]
  entry n name hn := by
    rw [Db.entry, Db.ref, rename_exchanged_get hod hnd hi hj hn (is_data_key_generate name)]
    simp only [edited, dot, dotdot, generate_data_key_inj, Option.map_some]
    split_ifs
    · simp
    · simp
    · simp
    · simp
    · rfl

/-! Where the puts to the dots write what was there, the exchange is a swap of the two names. -/

section plain

variable (hs : Swapped db db' old_dir old_name new_dir new_name i j)
  (hx : Exchangeable db old_dir old_name new_dir new_name i j)
  (hself : ∀ n, n = i ∨ n = j → db.IsDir n → db.entry n "." = some n)

include hs hx hself

theorem Swapped.plain {n : UInt64} (hn : db.IsDir n) (name : String) : db'.entry n name =
    if n = old_dir ∧ name = old_name then some j
    else if n = new_dir ∧ name = new_name then some i else db.entry n name := by
  rw [hs.entry n name hn]
  by_cases hdd : n = j ∧ name = ".."
  · obtain ⟨rfl, rfl⟩ := hdd
    have hp := hx.new hn
    rw [if_pos ⟨rfl, rfl⟩, hp.old]
    by_cases hij : i = n
    · simp only [hij, hp.parent, ite_self]
    · rw [if_neg (fun e => (hp.names hij).1.2 e.2.symm),
        if_neg (fun e => (hp.names hij).2.2 e.2.symm), hp.parent]
  · rw [if_neg hdd]
    by_cases hdot : n = i ∧ name = "."
    · obtain ⟨rfl, rfl⟩ := hdot
      have hp := hx.old hn
      rw [if_pos ⟨rfl, rfl⟩, hp.new]
      by_cases hij : n = j
      · simp only [← hij, hself n (.inl rfl) hn, ite_self]
      · rw [if_neg (fun e => (hp.names hij).1.1 e.2.symm),
          if_neg (fun e => (hp.names hij).2.1 e.2.symm), hself n (.inl rfl) hn]
    · rw [if_neg hdot]

/-- A directory that is its own parent keeps both dots. -/
theorem Swapped.keeps_dots {d : UInt64} (hd : db.IsDir d) (hdij : d = i ∨ d = j)
    (hp : OwnParent db old_dir old_name new_dir new_name i j d) :
    db'.entry d "." = some d ∧ db'.entry d ".." = some d := by
  rw [hs.plain hx hself hd, hs.plain hx hself hd, hself d hdij hd, hp.parent]
  by_cases hij : i = j
  · subst hij
    cases or_self_iff.mp hdij
    simp
  · obtain ⟨⟨h1, h2⟩, h3, h4⟩ := hp.names hij
    simp [h1.symm, h2.symm, h3.symm, h4.symm]

theorem Swapped.exchangeable : Exchangeable db' old_dir old_name new_dir new_name j i := by
  have hkind (n : UInt64) : db'.IsDir n ↔ db.IsDir n := isDir_congr (hs.owners.mode n)
  have howner (d : UInt64) (hd : db.IsDir d) (hdij : d = i ∨ d = j)
      (hp : OwnParent db old_dir old_name new_dir new_name i j d) :
      OwnParent db' old_dir old_name new_dir new_name j i d :=
    ⟨hp.old, hp.new, (hs.keeps_dots hx hself hd hdij hp).2, fun e => hp.names e.symm⟩
  obtain ⟨mode, hmode, hbit⟩ := hx.sticky
  exact ⟨⟨mode, (hs.owners.mode _).trans hmode, hbit⟩,
    fun h => howner j ((hkind j).mp h) (.inr rfl) (hx.new ((hkind j).mp h)),
    fun h => howner i ((hkind i).mp h) (.inl rfl) (hx.old ((hkind i).mp h))⟩

theorem Swapped.exchanges (hod : db.IsDir old_dir) (hnd : db.IsDir new_dir)
    (hi : db.entry old_dir old_name = some i) (hj : db.entry new_dir new_name = some j) :
    Exchanges db db' old_dir old_name new_dir new_name i j where
  old := by rw [hs.plain hx hself hod, if_pos ⟨rfl, rfl⟩]
  new := by
    rw [hs.plain hx hself hnd]
    split_ifs with hplace hnew
    · rw [hplace.1, hplace.2] at hj
      exact hj.symm.trans hi
    · rfl
    · exact absurd ⟨rfl, rfl⟩ hnew
  others n name hn hold hnew _ := by rw [hs.plain hx hself hn, if_neg hold, if_neg hnew]
  old_dots hd := by
    have hp := hx.old hd
    rw [hp.new]
    exact hs.keeps_dots hx hself hd (.inl rfl) hp
  new_dots hd := by
    have hp := hx.new hd
    rw [hp.old]
    exact hs.keeps_dots hx hself hd (.inr rfl) hp
  sizes := hs.sizes
  links := hs.links

/-- The second exchange swaps them back. -/
theorem Swapped.restores {db'' : Db}
    (hs' : Swapped db' db'' old_dir old_name new_dir new_name j i)
    (hi : db.entry old_dir old_name = some i) (hj : db.entry new_dir new_name = some j) :
    SameNames db db'' where
  entries n name hn := by
    have hkind (n : UInt64) : db'.IsDir n ↔ db.IsDir n := isDir_congr (hs.owners.mode n)
    have hself' : ∀ n, n = j ∨ n = i → db'.IsDir n → db'.entry n "." = some n := by
      rintro n (rfl | rfl) hn
      · have hn := (hkind n).mp hn
        exact (hs.keeps_dots hx hself hn (.inr rfl) (hx.new hn)).1
      · have hn := (hkind n).mp hn
        exact (hs.keeps_dots hx hself hn (.inl rfl) (hx.old hn)).1
    rw [hs'.plain (hs.exchangeable hx hself) hself' ((hkind n).mpr hn), hs.plain hx hself hn]
    split_ifs with hold hnew
    · rw [hold.1, hold.2, hi]
    · rw [hnew.1, hnew.2, hj]
    · rfl
  sizes n := (hs'.sizes n).trans (hs.sizes n)

end plain

/-! And only then: what the exchange has written is found in the entries. -/

section only

variable {db'' : Db} (h : Names db) (hod : db.IsDir old_dir) (hnd : db.IsDir new_dir)
  (hi : db.entry old_dir old_name = some i) (hj : db.entry new_dir new_name = some j)
  (hs : Swapped db db' old_dir old_name new_dir new_name i j)
  (hx : Exchanges db db' old_dir old_name new_dir new_name i j)
  (hs' : Swapped db' db'' old_dir old_name new_dir new_name j i) (hsame : SameNames db db'')

include h hod hj hs hx hs' hsame

theorem ownParent_old (hd : db.IsDir i) :
    OwnParent db old_dir old_name new_dir new_name i j i := by
  have hkind (n : UInt64) : db'.IsDir n ↔ db.IsDir n := isDir_congr (hs.owners.mode n)
  have hnew : new_dir = i := by
    have hdot := hx.old_dots hd |>.1
    rw [hs.entry i "." hd, if_neg (by simp), if_pos ⟨rfl, rfl⟩] at hdot
    exact Option.some.inj hdot
  have hdd : db.entry i ".." = some old_dir := by
    rw [← hsame.entries i ".." hd, hs'.entry i ".." ((hkind i).mpr hd), if_pos ⟨rfl, rfl⟩]
  have hdd' : db'.entry i ".." = some i := by
    rw [(hx.old_dots hd).2, hnew]
  have hold : old_dir = i := by
    by_cases hij : i = j
    · rw [hs.entry i ".." hd, if_pos ⟨hij, rfl⟩] at hdd'
      exact Option.some.inj hdd'
    · by_contra hne
      rw [hs.entry i ".." hd, if_neg (fun e => hij e.1), if_neg (by simp),
        if_neg (fun e => hne e.1.symm)] at hdd'
      split_ifs at hdd' with hplace
      · -- the parent of `i` is `j`, whose own entry the second exchange spoils
        rw [← hplace.1, ← hplace.2, hdd] at hj
        cases hj
        have hdot := hsame.entries old_dir "." hod
        rw [hs'.entry old_dir "." ((hkind _).mpr hod), if_neg (by simp), if_pos ⟨rfl, rfl⟩,
          h.self_entry hod, hnew] at hdot
        exact hij (Option.some.inj hdot)
      · exact hne (Option.some.inj (hdd.symm.trans hdd'))
  refine ⟨hold, hnew, hold ▸ hdd, fun hij => ⟨⟨?_, ?_⟩, ?_, ?_⟩⟩
  · rintro rfl
    have hdot := hx.old
    rw [hold, (hx.old_dots hd).1] at hdot
    exact hij (Option.some.inj hdot)
  · rintro rfl
    have hdot := hx.old
    rw [hold, hdd'] at hdot
    exact hij (Option.some.inj hdot)
  · rintro rfl
    rw [hnew, h.self_entry hd] at hj
    exact hij (Option.some.inj hj)
  · rintro rfl
    rw [hnew, hdd, hold] at hj
    exact hij (Option.some.inj hj)

include hnd hi

theorem ownParent_new (hd : db.IsDir j) :
    OwnParent db old_dir old_name new_dir new_name i j j := by
  have hkind (n : UInt64) : db'.IsDir n ↔ db.IsDir n := isDir_congr (hs.owners.mode n)
  have hnew : new_dir = j := by
    have hdot := hsame.entries j "." hd
    rw [hs'.entry j "." ((hkind j).mpr hd), if_neg (by simp), if_pos ⟨rfl, rfl⟩,
      h.self_entry hd] at hdot
    exact Option.some.inj hdot
  by_cases hdi : db.IsDir i
  · have hp := ownParent_old h hod hj hs hx hs' hsame hdi
    have hij : i = j := hp.new.symm.trans hnew
    subst hij
    exact hp
  · have hij : i ≠ j := fun e => hdi (e ▸ hd)
    have hold_name : old_name ≠ "." ∧ old_name ≠ ".." := by
      by_contra hdots
      exact hdi (h.dir_of_dots hod hi hdots)
    have hnew_dot : new_name ≠ "." := by
      rintro rfl
      have hdot := hx.new
      rw [hnew, (hx.new_dots hd).1] at hdot
      exact hij (Option.some.inj hdot).symm
    have hnew_dotdot : new_name ≠ ".." := by
      rintro rfl
      have hdot := hx.new
      rw [hnew, (hx.new_dots hd).2] at hdot
      exact hdi (Option.some.inj hdot ▸ hod)
    have hparent : db.entry j ".." = some j := by
      rw [h.parent_entry hnd hj hnew_dot hnew_dotdot hd, hnew]
    have hold : old_dir = j := by
      have hdd := hsame.entries j ".." hd
      rw [hs'.entry j ".." ((hkind j).mpr hd), if_neg (fun e => hij e.1.symm), if_neg (by simp),
        if_neg (fun e => hold_name.2 e.2.symm), if_neg (fun e => hnew_dotdot e.2.symm),
        (hx.new_dots hd).2, hparent] at hdd
      exact Option.some.inj hdd
    exact ⟨hold, hnew, hparent, fun _ => ⟨hold_name, hnew_dot, hnew_dotdot⟩⟩

end only

end swapped

/-! ## The run of an exchange -/

section run

variable {s s' : Sys} {uid gid flags : UInt32} {old_dir new_dir i j : UInt64}
  {old_name new_name : String} {old : RenameOld} {new : RenameNew} {t : DbfsTimeSpec}

/-- Rename with the flag, once it has read both places. -/
theorem exchange_run (hflags : flags &&& RENAME_EXCHANGE ≠ 0)
    (hold : rename_old_tx uid gid old_dir old_name s.db = .Ok (old, s.db))
    (hnew : rename_new_tx uid gid new_dir new_name s.db = .Ok (new, s.db)) :
    dbfs_common_rename uid gid old_dir old_name new_dir new_name flags t s =
      match new.number with
      | none => (.Err .NotFound, s)
      | some number => Fs.write
          (rename_exchange_tx old_dir old_name new_dir new_name old number new.perm t) s := by
  unfold dbfs_common_rename
  rw [Fs.bind_read, hold]
  simp only [Fs.bind_read, hnew]
  rw [if_pos hflags]
  rcases new.number with _ | number <;> rfl

section entries

variable (hflags : flags &&& RENAME_EXCHANGE ≠ 0) (hi : s.db.entry old_dir old_name = some i)
  (hj : s.db.entry new_dir new_name = some j)

include hflags hi hj

/-- An exchange that returns saw its target, and swapped. -/
theorem exchange_swapped
    (hrun : dbfs_common_rename uid gid old_dir old_name new_dir new_name flags t s = (.Ok (), s')) :
    s.db.Sticky new_dir ∧ Swapped s.db s'.db old_dir old_name new_dir new_name i j := by
  obtain ⟨old, new, ⟨_, hold⟩, ⟨_, hnew⟩, _⟩ := rename_spec hrun
  obtain ⟨hgrant, _, rfl, _, _, hperm, rfl⟩ := (rename_old_tx_iff hi).mp hold
  have hdb := rename_new_tx_db hj hnew
  subst hdb
  rw [exchange_run hflags hold hnew] at hrun
  by_cases hsticky : s.db.Sticky new_dir
  · obtain ⟨hgrant', _, hnumber, hperm', _, _⟩ := (rename_new_tx_iff hj hsticky).mp hnew
    rw [hnumber] at hrun
    obtain ⟨_, htx, rfl⟩ := Fs.write_ok.mp hrun
    obtain ⟨_, _, _, hod, _⟩ := hgrant
    obtain ⟨_, _, _, hnd, _⟩ := hgrant'
    refine ⟨hsticky, ?_⟩
    rw [rename_exchange_tx_eq htx]
    exact rename_exchanged_swapped (Db.has_of_u32 hod) (Db.has_of_u32 hnd) hperm hperm'
  · obtain ⟨_, rfl, _⟩ := (rename_new_tx_plain hsticky).mp hnew
    cases hrun

theorem exchange_allowed (hc : ExchangeChecks s.db uid gid old_dir i new_dir j)
    (hsticky : s.db.Sticky new_dir) : ∃ s',
      dbfs_common_rename uid gid old_dir old_name new_dir new_name flags t s = (.Ok (), s') := by
  obtain ⟨_, _, i_uid, hod, _, hiuid, _⟩ := hc.take
  obtain ⟨_, _, j_uid, hnd, _, hjuid, _⟩ := hc.drop
  obtain ⟨i_gid, higid⟩ := Option.isSome_iff_exists.mp (hc.has_gid i (.inl rfl))
  obtain ⟨i_mode, himode⟩ := Option.isSome_iff_exists.mp (hc.has_mode i (.inl rfl))
  obtain ⟨j_mode, hjmode⟩ := Option.isSome_iff_exists.mp (hc.has_mode j (.inr rfl))
  obtain ⟨j_size, hjsize⟩ := Option.isSome_iff_exists.mp (hc.has_size j (.inr rfl))
  have hold : rename_old_tx uid gid old_dir old_name s.db =
      .Ok (⟨i, i_uid, i_gid, i_mode⟩, s.db) :=
    (rename_old_tx_iff hi).mpr ⟨hc.out, hc.take, rfl, hiuid, higid, himode, rfl⟩
  have hnew : rename_new_tx uid gid new_dir new_name s.db = .Ok (⟨some j, j_mode, j_size⟩, s.db) :=
    (rename_new_tx_iff hj hsticky).mpr ⟨hc.into, hc.drop, rfl, hjmode, hjsize, rfl⟩
  rw [exchange_run hflags hold hnew]
  refine ⟨_, Fs.write_ok.mpr ⟨rename_exchanged s.db old_dir old_name new_dir new_name
    ⟨i, i_uid, i_gid, i_mode⟩ j j_mode t, ?_, rfl⟩⟩
  simp [rename_exchange_tx, rename_exchanged, Db.has_of_u32 hod, Db.has_of_u32 hnd,
    Db.has_of_u32 hiuid, Db.has_of_u32 hjuid]

end entries

/-- After an exchange root passes the checks of the next one. -/
theorem Swapped.checks {db db' : Db} (hs : Swapped db db' old_dir old_name new_dir new_name i j)
    (hc : ExchangeChecks db uid gid old_dir i new_dir j) (gid' : UInt32) :
    ExchangeChecks db' 0 gid' old_dir j new_dir i := by
  obtain ⟨_, _, i_uid, _, _, hiuid, _⟩ := hc.take
  obtain ⟨_, _, j_uid, _, _, hjuid, _⟩ := hc.drop
  exact
    { out := hs.owners.grants_root hc.out gid'
      take := hs.owners.mayTake_root hc.out hjuid
      into := hs.owners.grants_root hc.into gid'
      drop := hs.owners.mayTake_root hc.into hiuid
      has_gid := fun n hn => (congrArg _ (hs.owners.gid n)).trans (hc.has_gid n hn.symm)
      has_mode := fun n hn => (congrArg _ (hs.owners.mode n)).trans (hc.has_mode n hn.symm)
      has_size := fun n hn => (congrArg _ (hs.sizes n)).trans (hc.has_size n hn.symm) }

/-- An exchange is one exactly when the new directory has the sticky bit and neither inode is a
directory, save one that is its own parent. -/
theorem exchanges_atomically_iff (h : Names s.db) (hod : s.db.IsDir old_dir)
    (hnd : s.db.IsDir new_dir) (hi : s.db.entry old_dir old_name = some i)
    (hj : s.db.entry new_dir new_name = some j) (hflags : flags &&& RENAME_EXCHANGE ≠ 0)
    (hc : ExchangeChecks s.db uid gid old_dir i new_dir j) (t : DbfsTimeSpec) :
    ExchangesAtomically s uid gid old_dir old_name new_dir new_name flags t i j ↔
      Exchangeable s.db old_dir old_name new_dir new_name i j := by
  constructor
  · rintro ⟨s', hrun, hx, hback⟩
    obtain ⟨hsticky, hs⟩ := exchange_swapped hflags hi hj hrun
    obtain ⟨s'', hrun'⟩ := hback.allowed 0 .default
    obtain ⟨_, hs'⟩ := exchange_swapped hflags hx.old hx.new hrun'
    have hsame := hback.restores 0 0 .default s'' hrun'
    exact ⟨hsticky, ownParent_old h hod hj hs hx hs' hsame,
      ownParent_new h hod hnd hi hj hs hx hs' hsame⟩
  · intro hx
    have hself : ∀ n, n = i ∨ n = j → s.db.IsDir n → s.db.entry n "." = some n := fun n _ hn =>
      h.self_entry hn
    obtain ⟨s', hrun⟩ := exchange_allowed (t := t) hflags hi hj hc hx.sticky
    obtain ⟨_, hs⟩ := exchange_swapped hflags hi hj hrun
    have hxs := hs.exchanges hx hself hod hnd hi hj
    refine ⟨s', hrun, hxs, fun gid' t' => ?_, fun uid' gid' t' s'' hrun' => ?_⟩
    · exact exchange_allowed hflags hxs.old hxs.new (hs.checks hc gid')
        (hs.exchangeable hx hself).sticky
    · obtain ⟨_, hs'⟩ := exchange_swapped hflags hxs.old hxs.new hrun'
      exact hs.restores hx hself hs' hi hj

/-- In a tree no directory is its own parent: then both must be no directories. -/
theorem exchangeable_iff {db : Db} (hup : db.entry new_dir ".." ≠ some new_dir) :
    Exchangeable db old_dir old_name new_dir new_name i j ↔
      db.Sticky new_dir ∧ ¬ db.IsDir i ∧ ¬ db.IsDir j := by
  refine ⟨fun hx => ⟨hx.sticky, fun hd => ?_, fun hd => ?_⟩, fun ⟨hsticky, hdi, hdj⟩ =>
    ⟨hsticky, fun hd => absurd hd hdi, fun hd => absurd hd hdj⟩⟩
  · have hp := hx.old hd
    exact hup (by rw [hp.new, hp.parent])
  · have hp := hx.new hd
    exact hup (by rw [hp.new, hp.parent])

end run

/-! ## A file and a directory exchanged twice -/

section sample

attribute [local instance] sli512_features

/-- After the file `f` of the root and the directory `e` of a sticky directory are exchanged. -/
def exchanged_once : Sys :=
  (dbfs_common_rename 0 0 1 "f" 2 "e" RENAME_EXCHANGE .default sticky_dir).2

def exchanged_twice : Sys :=
  (dbfs_common_rename 0 0 1 "f" 2 "e" RENAME_EXCHANGE .default exchanged_once).2

/-- In a directory without the sticky bit no exchange finds its target. In a sticky one the second
exchange leaves the directory 4 with the number 2 for itself. -/
theorem second_exchange_spoils_dot :
    Names dir_and_file.db ∧ dir_and_file.db.entry 1 "f" = some 3 ∧
      dir_and_file.db.entry 1 "d" = some 2 ∧
      (dbfs_common_rename 0 0 1 "f" 1 "d" RENAME_EXCHANGE .default dir_and_file).1 =
        .Err .NotFound ∧
      Names sticky_dir.db ∧ sticky_dir.db.entry 1 "f" = some 3 ∧
      sticky_dir.db.entry 2 "e" = some 4 ∧
      dbfs_common_rename 0 0 1 "f" 2 "e" RENAME_EXCHANGE .default sticky_dir =
        (.Ok (), exchanged_once) ∧
      dbfs_common_rename 0 0 1 "f" 2 "e" RENAME_EXCHANGE .default exchanged_once =
        (.Ok (), exchanged_twice) ∧
      sticky_dir.db.entry 4 "." = some 4 ∧ exchanged_twice.db.entry 4 "." = some 2 ∧
      ¬ ExchangesAtomically sticky_dir 0 0 1 "f" 2 "e" RENAME_EXCHANGE .default 3 4 := by
  have hrun : dbfs_common_rename 0 0 1 "f" 2 "e" RENAME_EXCHANGE .default sticky_dir =
      (.Ok (), exchanged_once) := Prod.ext (by decide +kernel) rfl
  have hrun' : dbfs_common_rename 0 0 1 "f" 2 "e" RENAME_EXCHANGE .default exchanged_once =
      (.Ok (), exchanged_twice) := Prod.ext (by decide +kernel) rfl
  have hbefore : sticky_dir.db.entry 4 "." = some 4 := by decide +kernel
  have hafter : exchanged_twice.db.entry 4 "." = some 2 := by decide +kernel
  refine ⟨dir_and_file_names, by decide +kernel, by decide +kernel, by decide +kernel,
    sticky_dir_names, by decide +kernel, by decide +kernel, hrun, hrun', hbefore, hafter, ?_⟩
  rintro ⟨s', hs', _, hback⟩
  cases hrun.symm.trans hs'
  have hdot := (hback.restores 0 0 .default _ hrun').entries 4 "." (by decide +kernel)
  rw [hafter, hbefore] at hdot
  cases hdot

def create_g : NameCall :=
  .create 2 "g" .default (DbfsPermission.S_IFREG ||| 0o644) none none

/-- A file in the root and another one in a sticky directory. -/
def sticky_files : Sys := ⟨after_calls [create_g, create_f, mkdir_t], 5, ∅⟩

theorem sticky_files_names : Names sticky_files.db := by
  have hrun := sticky_run.after create_g
    ⟨by decide +kernel, by decide, by decide, by decide +kernel, .RegularFile, by decide⟩ trivial
  exact hrun.names.1

/-- These two are exchanged. -/
theorem two_files_are_exchanged :
    ExchangesAtomically sticky_files 0 0 1 "f" 2 "g" RENAME_EXCHANGE .default 3 4 := by
  have hsticky : sticky_files.db.Sticky 2 := ⟨18431, by decide +kernel, by decide⟩
  have hchecks : ExchangeChecks sticky_files.db 0 0 1 3 2 4 :=
    { out := ⟨0, 0, 16895, by decide +kernel, by decide +kernel, by decide +kernel, by decide⟩
      take := ⟨0, 16895, 0, by decide +kernel, by decide +kernel, by decide +kernel, by decide⟩
      into := ⟨0, 0, 18431, by decide +kernel, by decide +kernel, by decide +kernel, by decide⟩
      drop := ⟨0, 18431, 0, by decide +kernel, by decide +kernel, by decide +kernel, by decide⟩
      has_gid := by rintro _ (rfl | rfl) <;> decide +kernel
      has_mode := by rintro _ (rfl | rfl) <;> decide +kernel
      has_size := by rintro _ (rfl | rfl) <;> decide +kernel }
  exact (exchanges_atomically_iff sticky_files_names (by decide +kernel) (by decide +kernel)
    (by decide +kernel) (by decide +kernel) (by decide) hchecks .default).mpr
    ⟨hsticky, fun hd => absurd hd (by decide +kernel), fun hd => absurd hd (by decide +kernel)⟩

end sample

end dbfs2
