-- What a transaction may change: one relation between two databases, with a rule for
-- every put and delete, and one lemma for every call. What holds in all states of a
-- run, for the fields of all inodes, is read off these lemmas.
import Dbfs2.InodeSpec
import Dbfs2.Xattr

namespace dbfs2

open common Tx inode attr file

/-! ## Changes -/

/-- The buckets of `P` that are in the second database were there before, and hold nothing new
but what `W` allows. -/
structure Changes (P : UInt64 → Prop) (W : Bytes → Option Bytes → Prop) (db db' : Db) : Prop where
  has (n : UInt64) : P n → db'.Has n → db.Has n
  get (n : UInt64) (k : Bytes) : P n → db'.Has n → db'.get n k = db.get n k ∨ W k (db'.get n k)

namespace Changes

variable {P : UInt64 → Prop} {W : Bytes → Option Bytes → Prop} {db db₁ db' : Db} {n : UInt64}
  {k v : Bytes}

theorem refl (db : Db) : Changes P W db db := ⟨fun _ _ h => h, fun _ _ _ _ => .inl rfl⟩

theorem trans (h : Changes P W db db₁) (h' : Changes P W db₁ db') : Changes P W db db' where
  has n hP hn := h.has n hP (h'.has n hP hn)
  get n k hP hn := by
    rcases h'.get n k hP hn with h1 | h1
    · rw [h1]
      exact h.get n k hP (h'.has n hP hn)
    · exact .inr h1

theorem mono {Q : UInt64 → Prop} {V : Bytes → Option Bytes → Prop} (h : Changes P W db db')
    (hQ : ∀ n, Q n → P n) (hV : ∀ k o, W k o → V k o) : Changes Q V db db' :=
  ⟨fun n hn => h.has n (hQ n hn), fun n k hn hh => (h.get n k (hQ n hn) hh).imp_right (hV k _)⟩

theorem put (h : Changes P W db db₁) (hW : P n → W k (some v)) :
    Changes P W db (db₁.put n k v) := by
  refine h.trans ⟨fun m _ hm => (Db.has_put ..).mp hm, fun m k' hP hm => ?_⟩
  rw [Db.get_put]
  split_ifs with hc
  · obtain ⟨rfl, rfl, _⟩ := hc
    exact .inr (hW hP)
  · exact .inl rfl

theorem put_if (h : Changes P W db db₁) (c : Bool) (hW : P n → W k (some v)) :
    Changes P W db (db₁.put_if c n k v) := by
  cases c with
  | false => exact h
  | true => exact h.put hW

theorem puts (h : Changes P W db db₁) {kvs : List (Bytes × Bytes)}
    (hW : ∀ kv ∈ kvs, P n → W kv.1 (some kv.2)) : Changes P W db (db₁.puts n kvs) := by
  induction kvs generalizing db₁ with
  | nil => exact h
  | cons kv kvs ih =>
    rw [Db.puts_cons]
    exact ih (h.put (hW kv List.mem_cons_self)) fun x hx => hW x (List.mem_cons_of_mem _ hx)

theorem delete (h : Changes P W db db₁) (hW : P n → W k none) :
    Changes P W db (db₁.delete n k) := by
  refine h.trans ⟨fun m _ hm => (Db.has_delete ..).mp hm, fun m k' hP hm => ?_⟩
  rw [Db.get_delete]
  split_ifs with hc
  · obtain ⟨rfl, rfl⟩ := hc
    exact .inr (hW hP)
  · exact .inl rfl

theorem drop (h : Changes P W db db₁) (n : UInt64) : Changes P W db (db₁.drop n) := by
  refine h.trans ⟨fun m _ hm => ((Db.has_drop ..).mp hm).2, fun m k' hP hm => .inl ?_⟩
  rw [Db.get_drop, if_neg ((Db.has_drop ..).mp hm).1]

/-- Nothing is said about the bucket that is made. -/
theorem create (h : Changes P W db db₁) (hP : ¬ P n) : Changes P W db (db₁.create n) := by
  refine h.trans ⟨fun m hm hh => ?_, fun m k' hm _ => .inl ?_⟩
  · rcases (Db.has_create ..).mp hh with rfl | hh
    · exact absurd hm hP
    · exact hh
  · rw [Db.get_create, if_neg]
    rintro rfl
    exact hP hm

theorem sb_put (h : Changes P W db db₁) (f : Field) (v : Bytes) :
    Changes P W db (db₁.sb_put f v) :=
  h.trans ⟨fun _ _ hm => hm, fun _ _ _ _ => .inl rfl⟩

end Changes

/-! ## The values of fields -/

/-- What calls write to a field of an inode that is there already: sizes up to `B`, link counts
and times. -/
def common.Field.Writes (B : Nat) : Field → Option Bytes → Prop
  | .size, o => ∃ x ≤ B, o = some (be_usize x)
  | .hard_links, o => ∃ links : UInt32, o = some (be_u32 links)
  | .atime, o => ∃ t : DbfsTimeSpec, o = some t.to_be_bytes
  | .mtime, o => ∃ t : DbfsTimeSpec, o = some t.to_be_bytes
  | .ctime, o => ∃ t : DbfsTimeSpec, o = some t.to_be_bytes
  | _, _ => False

/-- A value under any key: what is no field is free, and the key of an entry comes from a name. -/
def Wrote (B : Nat) (k : Bytes) (o : Option Bytes) : Prop :=
  (∀ f : Field, k = f.key → f.Writes B o) ∧
    (is_data_key k = true → ∃ name, k = generate_data_key name)

section wrote

variable {B : Nat}

theorem wrote_field {f : Field} {o : Option Bytes} (h : f.Writes B o) : Wrote B f.key o := by
  refine ⟨fun g hg => ?_, fun hdata => ?_⟩
  · rw [← Field.key_injective hg]
    exact h
  · rw [is_data_key_field] at hdata
    cases hdata

theorem wrote_size {x : Nat} (h : x ≤ B) : Wrote B Field.size.key (some (be_usize x)) :=
  wrote_field ⟨x, h, rfl⟩

theorem wrote_links (links : UInt32) : Wrote B Field.hard_links.key (some (be_u32 links)) :=
  wrote_field ⟨links, rfl⟩

theorem wrote_atime (t : DbfsTimeSpec) : Wrote B Field.atime.key (some t.to_be_bytes) :=
  wrote_field ⟨t, rfl⟩

theorem wrote_mtime (t : DbfsTimeSpec) : Wrote B Field.mtime.key (some t.to_be_bytes) :=
  wrote_field ⟨t, rfl⟩

theorem wrote_ctime (t : DbfsTimeSpec) : Wrote B Field.ctime.key (some t.to_be_bytes) :=
  wrote_field ⟨t, rfl⟩

theorem wrote_other {k : Bytes} (h : ∀ f : Field, k ≠ f.key) (hdata : is_data_key k = false)
    (o : Option Bytes) : Wrote B k o := by
  refine ⟨fun f hf => absurd hf (h f), fun hk => ?_⟩
  rw [hdata] at hk
  cases hk

theorem wrote_entry (name : String) (o : Option Bytes) : Wrote B (generate_data_key name) o :=
  ⟨fun f hf => absurd hf (generate_data_key_ne_field name f), fun _ => ⟨name, rfl⟩⟩

theorem wrote_slice (i : Nat) (o : Option Bytes) : Wrote B (slice_key i) o :=
  wrote_other (fun f => (field_ne_slice_key f i).symm) (is_data_key_number _) o

theorem wrote_xattr {key : String} (h : IsXattr key) (o : Option Bytes) :
    Wrote B (as_bytes key) o := wrote_other (xattr_ne_field h) (xattr_not_data h) o

end wrote

/-- No stored size is above `B`. -/
def Db.Fits (B : Nat) (db : Db) : Prop := ∀ n x, db.usize n .size = some x → x ≤ B

/-- The directory may grow by an entry. -/
def Db.MayGrow (B : Nat) (db : Db) (dir : UInt64) : Prop :=
  ∀ size, db.usize dir .size = some size → size + 1 < 2 ^ 64 → size + 1 ≤ B

/-! ## The naming calls -/

section naming

variable {P : UInt64 → Prop} {B : Nat} {db db' : Db} {uid gid : UInt32} {name : String}
  {t : DbfsTimeSpec} {u : Unit}

theorem link_changes {ino new_ino : UInt64}
    (h : link_tx ino new_ino name t db = .Ok (u, db'))
    (hgrow : db.MayGrow B new_ino) :
    Changes P (Wrote B) db db' := by
  obtain ⟨size, links, _, hsize, hlt, _, _, rfl⟩ := link_tx_spec h
  exact ((((((Changes.refl db).put fun _ => wrote_entry _ _).put fun _ =>
    wrote_size (hgrow size hsize hlt)).put fun _ => wrote_ctime t).put fun _ => wrote_mtime t).put
    fun _ => wrote_links _).put fun _ => wrote_ctime t

theorem create_entry_changes (dir n : UInt64) {size : Nat} (hB : size + 1 ≤ B) :
    Changes P (Wrote B) db (create_entry db dir name n size t) :=
  ((((Changes.refl db).put fun _ => wrote_size hB).put fun _ => wrote_entry _ _).put fun _ =>
    wrote_ctime t).put fun _ => wrote_mtime t

/-- Create leaves all inodes but the new one as the others do. -/
theorem create_changes [Features] {n dir : UInt64} {permission : DbfsPermission}
    {target_path : Option String} {dev : Option UInt32}
    {r : UInt32 × DbfsPermission × UInt32 × Nat × Option UInt32}
    (h : create_tx n dir name uid gid t permission target_path dev db = .Ok (r, db'))
    (hgrow : db.MayGrow B dir) :
    Changes (· ≠ n) (Wrote B) db db' := by
  obtain ⟨_, _, _, size, _, _, hsize, hlt, hnew⟩ := create_tx_spec h
  obtain ⟨_, _, hhas, hget, _⟩ := new_inode_tx_spec hnew
  refine (create_entry_changes dir n (hgrow size hsize hlt)).trans
    ⟨fun m hm hh => ((hhas m).mp hh).resolve_left hm, fun m k hm _ => .inl (hget m k hm)⟩

/-- Unlink, with the inode given or looked up. -/
theorem unlink_changes {dir : UInt64} {ino : Option UInt64}
    (h : unlink_tx uid gid dir name ino t db = .Ok (u, db'))
    (hB : db.Fits B) :
    Changes P (Wrote B) db db' := by
  obtain ⟨_, i, size, links, _, _, hsize, _, _, hend⟩ := unlink_tx_spec h
  have hdir : Changes P (Wrote B) db ((((db.delete dir (generate_data_key name)).put dir
      Field.size.key (be_usize (size - 1))).put dir Field.ctime.key t.to_be_bytes).put dir
      Field.mtime.key t.to_be_bytes) :=
    ((((Changes.refl db).delete fun _ => wrote_entry _ _).put fun _ =>
      wrote_size ((Nat.sub_le size 1).trans (hB dir size hsize))).put fun _ =>
      wrote_ctime t).put fun _ => wrote_mtime t
  rcases hend with ⟨_, rfl⟩ | ⟨_, _, rfl⟩
  · exact hdir.drop i
  · exact (hdir.put fun _ => wrote_links _).put fun _ => wrote_ctime t

theorem rmdir_changes {dir : UInt64} (h : rmdir_tx uid gid dir name t db = .Ok (u, db'))
    (hB : db.Fits B) :
    Changes P (Wrote B) db db' := by
  obtain ⟨_, i, size, _, _, _, _, _, hsize, _, rfl⟩ := rmdir_tx_spec h
  exact (((((Changes.refl db).put fun _ => wrote_mtime t).put fun _ => wrote_ctime t).delete
    fun _ => wrote_entry _ _).put fun _ =>
    wrote_size ((Nat.sub_le size 1).trans (hB dir size hsize))).drop i

section rename

variable {old_dir new_dir : UInt64} {old_name new_name : String} {old : RenameOld}
  {new : RenameNew}

theorem rename_exchange_changes {number : UInt64} {perm : DbfsPermission}
    (h : rename_exchange_tx old_dir old_name new_dir new_name old number perm t db = .Ok (u, db')) :
    Changes P (Wrote B) db db' := by
  rw [rename_exchange_tx_eq h]
  exact ((((((((((Changes.refl db).put fun _ => wrote_entry _ _).put fun _ => wrote_entry _ _).put
    fun _ => wrote_ctime t).put fun _ => wrote_mtime t).put fun _ => wrote_ctime t).put fun _ =>
    wrote_mtime t).put fun _ => wrote_ctime t).put fun _ => wrote_ctime t).put_if _ fun _ =>
    wrote_entry _ _).put_if _ fun _ => wrote_entry _ _

theorem rename_moved_changes {old_size new_size : Nat} (hold : old_size - 1 ≤ B)
    (hnew : (if old_dir = new_dir then new_size else new_size + 1) ≤ B) :
    Changes P (Wrote B) db
      (rename_moved db old_dir old_name new_dir new_name old old_size new_size t) :=
  ((((((((((Changes.refl db).delete fun _ => wrote_entry _ _).put fun _ => wrote_size hold).put
    fun _ => wrote_entry _ _).put fun _ => wrote_size hnew).put fun _ => wrote_ctime t).put fun _ =>
    wrote_mtime t).put fun _ => wrote_ctime t).put fun _ => wrote_mtime t).put fun _ =>
    wrote_ctime t).put_if _ fun _ => wrote_entry _ _

/-- The move writes sizes that are at most one more than stored ones. A target that it takes away
is dropped where the link count has its four bytes; where it has eight, eight are written. -/
theorem rename_move_changes {W : Bytes → Option Bytes → Prop} (hW : ∀ k o, Wrote B k o → W k o)
    (h : rename_move_tx old_dir old_name new_dir new_name old new t db = .Ok (u, db'))
    (hlinks : (∀ n, db.usize n .hard_links = none) ∨
      ∀ x, W Field.hard_links.key (some (be_usize x)))
    (hB : db.Fits B) (hgrow : db.MayGrow B new_dir) : Changes P W db db' := by
  obtain ⟨db₁, new_size, old_size, hnone, hsome, _, hold, _, hlt, _, _, rfl⟩ := rename_move_tx_eq h
  rcases hn : new.number with _ | number
  · obtain ⟨rfl, hnew⟩ := hnone hn
    refine (rename_moved_changes ((Nat.sub_le ..).trans (hB _ _ hold)) ?_).mono (fun _ => id) hW
    split_ifs with hsame
    · exact hB _ _ hnew
    · exact hgrow _ hnew (hlt hsame)
  · obtain ⟨size, hnew, hrep⟩ := hsome number hn
    obtain ⟨hle, rfl, hcases⟩ := rename_replace_tx_eq hrep
    have hentry : Changes P W db (db.delete new_dir (generate_data_key new_name)) :=
      (Changes.refl db).delete fun _ => hW _ _ (wrote_entry _ _)
    -- the size of the old directory is that of the start
    have hmoved : db₁.usize old_dir .size = db.usize old_dir .size → Changes P W db₁
        (rename_moved db₁ old_dir old_name new_dir new_name old old_size (size - 1) t) := by
      intro hsame
      rw [hsame] at hold
      have hsize := hB _ _ hnew
      refine (rename_moved_changes ((Nat.sub_le ..).trans (hB _ _ hold)) ?_).mono (fun _ => id) hW
      split_ifs <;> omega
    have hdropped : db₁ = (db.delete new_dir (generate_data_key new_name)).drop number →
        Changes P W db (rename_moved db₁ old_dir old_name new_dir new_name old old_size
          (size - 1) t) := by
      rintro rfl
      refine (hentry.drop number).trans (hmoved ?_)
      simp at hold
      simp [hold.1]
    rcases hcases with ⟨_, hdb⟩ | ⟨_, links, hl, hdb | rfl⟩
    · exact hdropped hdb
    · exact hdropped hdb
    · refine ((hentry.put fun _ => ?_).put fun _ => hW _ _ (wrote_ctime t)).trans (hmoved (by simp))
      rcases hlinks with hlinks | hlinks
      · rw [hlinks number] at hl
        cases hl
      · exact hlinks _

end rename

end naming

/-! ## The calls on contents -/

section contents

variable [Features] {P : UInt64 → Prop} {B : Nat} {db db' : Db} {n : UInt64} {u : Unit}

omit [Features] in
theorem SlicesOnly.changes (h : SlicesOnly n db db') : Changes P (Wrote B) db db' where
  has m _ hm := (h.has m).mp hm
  get m k _ _ := by
    by_cases hk : ∃ i, k = slice_key i
    · obtain ⟨i, rfl⟩ := hk
      exact .inr (wrote_slice i _)
    · exact .inl (h.get m k fun _ i e => hk ⟨i, e⟩)

theorem write_changes {buf : Bytes} {offset c : Nat} {scratch : Scratch}
    (h : write_tx n buf offset scratch db = .Ok (c, db')) (hB : db.Fits B)
    (hend : offset + buf.length < 2 ^ 64 → offset + buf.length ≤ B) :
    Changes P (Wrote B) db db' := by
  simp [write_tx] at h
  obtain ⟨_, size, hsize, count, db₁, hloop, hlt, h⟩ := h
  obtain ⟨honly, hcount⟩ := write_loop_only hloop
  rw [Nat.zero_add] at hcount
  subst hcount
  rcases h with ⟨_, ⟨_, rfl⟩, _⟩ | ⟨_, _, rfl⟩
  · exact honly.changes.put fun _ => wrote_size (max_le (hB n size hsize) (hend hlt))
  · exact honly.changes

/-- The mode is the last thing that truncate writes, and the only thing it writes that the other
calls do not. -/
theorem truncate_changes {ctime : DbfsTimeSpec} {f_size : UInt64} {attr a : DbfsAttr}
    (h : truncate_tx n ctime f_size attr db = .Ok (a, db')) (hend : f_size.toNat ≤ B) :
    ∃ db₁, Changes P (Wrote B) db db₁ ∧
      db' = db₁.put n Field.mode.key (be_u16 (clear_suid_sgid attr.perm)) := by
  simp [truncate_tx] at h
  obtain ⟨_, _, db₁, hblocks, _, ⟨_, rfl⟩, _⟩ := h
  obtain ⟨db₂, _, _, honly, _, _, rfl, _⟩ := truncate_blocks_ok hblocks
  exact ⟨_, (((honly.changes.sb_put _ _).put fun _ => wrote_size hend).put fun _ =>
    wrote_ctime ctime).put fun _ => wrote_mtime ctime, rfl⟩

omit [Features] in
theorem charge_changes {gap : Nat} (h : charge gap db = .Ok (u, db')) :
    Changes P (Wrote B) db db' := by
  obtain ⟨_, _, _, rfl⟩ := charge_ok.mp h
  exact (Changes.refl db).sb_put _ _

omit [Features] in
theorem fallocate_size_changes {f_size i_size : Nat} {mode : UInt32} {ctime : DbfsTimeSpec}
    (h : fallocate_size n f_size i_size mode ctime db = .Ok (u, db'))
    (hend : mode &&& FALLOC_FL_KEEP_SIZE = 0 → f_size ≤ B) : Changes P (Wrote B) db db' := by
  simp [fallocate_size] at h
  rcases h with ⟨hkeep, _, ⟨_, _, rfl⟩ | ⟨_, rfl⟩⟩ | ⟨_, rfl⟩
  · exact (((Changes.refl db).put fun _ => wrote_ctime ctime).put fun _ => wrote_mtime ctime).put
      fun _ => wrote_size (hend hkeep)
  · exact ((Changes.refl db).put fun _ => wrote_ctime ctime).put fun _ => wrote_mtime ctime
  · exact .refl _

theorem fallocate_changes {r_uid r_gid : UInt32} {offset size : Nat} {mode : UInt32}
    {ctime : DbfsTimeSpec} (h : fallocate_tx r_uid r_gid n offset size mode ctime db = .Ok (u, db'))
    (hend : mode &&& FALLOC_FL_KEEP_SIZE = 0 → offset + size < 2 ^ 64 → offset + size ≤ B) :
    Changes P (Wrote B) db db' := by
  simp [fallocate_tx] at h
  obtain ⟨_, _, _, _, _, _, _, i_size, _, _, hlt, h⟩ := h
  rcases h with ⟨_, _, db₁, hcharge, h⟩ | ⟨_, h⟩
  · exact (charge_changes hcharge).trans (fallocate_size_changes h fun hk => hend hk hlt)
  · exact fallocate_size_changes h fun hk => hend hk hlt

end contents

/-! ## The calls on attributes -/

section attributes

variable {P : UInt64 → Prop} {B : Nat} {db db' : Db} {n : UInt64} {u : Unit}

theorem setxattr_changes {r_uid r_gid : UInt32} {key : String} {value : Bytes}
    {ctime : DbfsTimeSpec} (h : setxattr_tx r_uid r_gid n key value ctime db = .Ok (u, db')) :
    Changes P (Wrote B) db db' := by
  obtain ⟨hmay, rfl⟩ := setxattr_tx_iff.mp h
  exact ((Changes.refl db).put fun _ => wrote_xattr (mayXattr_isXattr hmay) _).put fun _ =>
    wrote_ctime ctime

theorem utimens_changes {atime mtime : Option DbfsTimeSpec} {c_time : DbfsTimeSpec}
    (h : utimens_tx n atime mtime c_time db = .Ok (u, db')) : Changes P (Wrote B) db db' := by
  simp only [utimens_tx, bind_ok, get_bucket_ok] at h
  obtain ⟨_, _, ⟨hn, rfl⟩, _, db₁, hatime, _, db₂, hmtime, hput⟩ := h
  rw [puts_ok hn] at hatime
  subst hatime
  rw [puts_ok (by simpa using hn)] at hmtime
  subst hmtime
  rw [put_ok] at hput
  obtain ⟨_, rfl⟩ := hput
  refine (((Changes.refl _).puts fun kv hkv _ => ?_).puts fun kv hkv _ => ?_).put fun _ =>
    wrote_ctime c_time
  · obtain ⟨t, _, rfl⟩ := List.mem_map.mp hkv
    exact wrote_atime t
  · obtain ⟨t, _, rfl⟩ := List.mem_map.mp hkv
    exact wrote_mtime t

end attributes

end dbfs2
