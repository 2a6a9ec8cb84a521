-- Sessions: a mount in a new process, a run of operations, an unmount. The next inode
-- number is saved at the unmount; the rvfs mount restores it and `DbfsFuse::init` does
-- not, so that a FUSE session on a database with inodes starts below their numbers.
import Dbfs2.Ops
import Dbfs2.Ownership

namespace dbfs2

open common Tx inode attr file fs_type

/-! ## Calls that take no number -/

namespace Fs

variable {α β : Type}

/-- The counter of the process stays as it is. -/
def Steady (x : Fs α) : Prop := ∀ s, (x s).2.DBFS_INODE_NUMBER = s.DBFS_INODE_NUMBER

theorem Steady.read (x : Tx α) : Steady (Fs.read x) := fun s => by rw [read_state]

theorem Steady.write (x : Tx α) : Steady (Fs.write x) := fun s => by
  rcases write_state x s with h | ⟨a, db', _, h⟩
  · rw [h]
  · rw [h]

theorem Steady.bind {x : Fs α} {g : α → Fs β} (hx : Steady x) (hg : ∀ a, Steady (g a)) :
    Steady (x >>= g) := fun s => by
  have h := hx s
  rw [bind_eq]
  rcases hs : x s with ⟨a | e | _, s'⟩ <;> rw [hs] at h
  · exact (hg a s').trans h
  · exact h
  · exact h

theorem Steady.pure (a : α) : Steady (pure a : Fs α) := fun _ => rfl

theorem Steady.fail (e : DbfsError) : Steady (fail e : Fs α) := fun _ => rfl

theorem Steady.ensure (c : Bool) (e : DbfsError) : Steady (Fs.ensure c e) := by
  rcases c with _ | _
  · exact .fail e
  · exact .pure ()

theorem Steady.map_err (e : DbfsError) {x : Fs α} (h : Steady x) : Steady (Fs.map_err e x) :=
  fun s => h s

end Fs

section steady

variable [Features]

/-- Only create takes a number. -/
def Call.Creates : Call → Prop
  | .naming (.create ..) => True
  | _ => False

omit [Features] in
theorem attr_steady (n : UInt64) : (dbfs_common_attr n).Steady := .read _

theorem call_steady (r_uid r_gid : UInt32) (call : Call) (h : ¬ call.Creates) :
    (call.run r_uid r_gid).Steady := by
  cases call with
  | naming call =>
    cases call with
    | create => exact absurd trivial h
    | link ino new_ino name t =>
      exact .bind (.bind (.map_err _ (attr_steady _)) fun _ => .bind (.ensure _ _) fun _ =>
        .bind (.write _) fun _ => .map_err _ (attr_steady _)) fun _ => .pure _
    | unlink dir name t => exact .write _
    | rmdir p_ino name t => exact .write _
    | rename old_dir old_name new_dir new_name flags t =>
      refine .bind (.read _) fun old => .bind (.read _) fun new => ?_
      split_ifs
      · rcases new.number with _ | number
        · exact .fail _
        · exact .write _
      · exact .bind (.ensure _ _) fun _ => .bind (.ensure _ _) fun _ => .write _
  | unlink_ino dir name ino t => exact .write _
  | write ino buf offset scratch => exact .bind (.write _) fun _ => .pure _
  | truncate ino t f_size =>
    exact .bind (.bind (.bind (.map_err _ (attr_steady _)) fun _ => .bind (.ensure _ _) fun _ =>
      .pure _) fun _ => .write _) fun _ => .pure _
  | fallocate ino offset size mode t => exact .write _
  | setxattr ino key value t => exact .write _
  | removexattr ino key t => exact .read _
  | chmod ino mode t =>
    refine .bind (.bind (.map_err _ (attr_steady _)) fun attr => .bind (.ensure _ _) fun _ =>
      .bind (.ensure _ _) fun _ => ?_) fun _ => .pure _
    dsimp only
    split_ifs
    · exact .bind (.write _) fun _ => .pure _
    · exact .pure _
  | chown ino uid gid t =>
    exact .bind (.bind (.map_err _ (attr_steady _)) fun _ => .bind (.ensure _ _) fun _ =>
      .bind (.ensure _ _) fun _ => .bind (.ensure _ _) fun _ => .bind (.write _) fun _ =>
      .pure _) fun _ => .pure _
  | utimens ino atime mtime t =>
    exact .bind (.bind (attr_steady _) fun _ => .bind (.ensure _ _) fun _ =>
      .bind (.ensure _ _) fun _ => .bind (.write _) fun _ => .pure _) fun _ => .pure _

end steady

/-! ## One operation and the counter -/

/-- A step takes no number and makes no inode. -/
def Keeps (s s' : Sys) : Prop :=
  s'.DBFS_INODE_NUMBER = s.DBFS_INODE_NUMBER ∧ ∀ n, s'.db.Has n → s.db.Has n

/-- A step takes the next number, and makes no other inode than that. -/
def Takes (s s' : Sys) : Prop :=
  s'.DBFS_INODE_NUMBER = s.DBFS_INODE_NUMBER + 1 ∧
    ∀ n, s'.db.Has n → s.db.Has n ∨ n = s.DBFS_INODE_NUMBER

section takes

variable [Features] {s : Sys}

theorem create_takes (dir : UInt64) (name : String) (uid gid : UInt32) (t : DbfsTimeSpec)
    (permission : DbfsPermission) (target_path : Option String) (dev : Option UInt32) :
    Takes s (dbfs_common_create dir name uid gid t permission target_path dev s).2 := by
  rw [create_state]
  rcases htx : create_tx s.DBFS_INODE_NUMBER dir name uid gid t permission target_path dev s.db
    with ⟨r, db'⟩ | e | _
  · refine ⟨rfl, fun n hn => ?_⟩
    obtain ⟨_, _, _, _, _, _, _, _, hnew⟩ := create_tx_spec htx
    obtain ⟨_, _, hhas, _⟩ := new_inode_tx_spec hnew
    rcases (hhas n).mp hn with rfl | hold
    · exact .inr rfl
    · exact .inl (by simpa [create_entry] using hold)
  · exact ⟨rfl, fun _ hn => .inl hn⟩
  · exact ⟨rfl, fun _ hn => .inl hn⟩

omit [Features] in
theorem has_of_attr {n : UInt64} {attr : DbfsAttr} {db db' : Db}
    (h : attr_tx n db = .Ok (attr, db')) : db.Has n :=
  Db.has_of_u32 (attr_tx_spec h).2.1

/-- A call other than create makes no inode. -/
theorem call_has (r_uid r_gid : UInt32) (call : Call) (h : ¬ call.Creates) {n : UInt64}
    (hn : (call.run r_uid r_gid s).2.db.Has n) : s.db.Has n := by
  have hchanges : Changes (fun n => call.Spares s n) (fun _ _ => True) s.db
      (call.run r_uid r_gid s).2.db :=
    call_changes (fun _ _ _ => trivial) (.inr fun _ => trivial) (fits_max s.db) call
      (call.fits_max s.db) r_uid r_gid
  by_cases hspares : call.Spares s n
  · exact hchanges.has n hspares hn
  · cases call with
    | naming call =>
      cases call with
      | create => exact absurd trivial h
      | _ => exact absurd trivial hspares
    | truncate ino t f_size =>
      obtain rfl : n = ino := not_not.mp hspares
      rw [Call.run, Fs.discard_state] at hn
      rcases truncate_state t f_size with hs | ⟨attr, _, _, _, hattr, _⟩
      · rwa [hs] at hn
      · exact has_of_attr hattr
    | chmod ino mode t =>
      obtain rfl : n = ino := not_not.mp hspares
      rw [Call.run, Fs.discard_state] at hn
      rcases chmod_state mode t with hs | ⟨attr, _, hattr, _⟩
      · rwa [hs] at hn
      · exact has_of_attr hattr
    | chown ino uid gid t =>
      obtain rfl : n = ino := not_not.mp hspares
      rw [Call.run, Fs.discard_state] at hn
      rcases chown_state uid gid t with hs | ⟨attr, _, hattr, _⟩
      · rwa [hs] at hn
      · exact has_of_attr hattr
    | _ => exact absurd trivial hspares

theorem call_takes (r_uid r_gid : UInt32) {call : Call} (h : call.Creates) :
    Takes s (call.run r_uid r_gid s).2 := by
  rcases call with call | _ | _ | _ | _ | _ | _ | _ | _ | _
  case naming =>
    rcases call with ⟨dir, name, t, permission, target_path, dev⟩ | _ | _ | _ | _
    case create =>
      rw [Call.run, NameCall.run, Fs.discard_state]
      exact create_takes dir name r_uid r_gid t permission target_path dev
    all_goals exact h.elim
  all_goals exact h.elim

theorem call_counts (r_uid r_gid : UInt32) (call : Call) :
    Keeps s (call.run r_uid r_gid s).2 ∨ call.Creates ∧ Takes s (call.run r_uid r_gid s).2 := by
  by_cases h : call.Creates
  · exact .inr ⟨h, call_takes r_uid r_gid h⟩
  · exact .inl ⟨call_steady r_uid r_gid call h s, fun _ => call_has r_uid r_gid call h⟩

/-- With a root inode there is nothing to make; without one a number is taken, and the first
one becomes the root inode. -/
theorem root_inode_there (uid gid : UInt32) (ctime : DbfsTimeSpec) (h : s.db.Has 1) :
    (dbfs_common_root_inode uid gid ctime s).2 = s := by
  rw [dbfs_common_root_inode, if_pos h]
  rcases Fs.write_state (read_usize 1 .size) s with hs | ⟨_, db', htx, hs⟩
  · exact hs
  · rw [hs, (read_usize_ok.mp htx).2]

omit [Features] in
theorem Keeps.refl (s : Sys) : Keeps s s := ⟨rfl, fun _ hn => hn⟩

theorem root_inode_takes (uid gid : UInt32) (ctime : DbfsTimeSpec) (h : ¬ s.db.Has 1) :
    Takes s (dbfs_common_root_inode uid gid ctime s).2 := by
  rw [root_inode_fresh _ _ _ h]
  split_ifs with hone
  · rw [Fs.write, new_root_tx_eq _ _ _ h]
    refine ⟨rfl, fun n hn => ?_⟩
    rw [hone]
    simpa [or_comm] using hn
  · exact ⟨rfl, fun _ hn => .inl hn⟩

omit [Features] in
theorem keeps_of_changes {B : Nat} {s' : Sys}
    (hnumber : s'.DBFS_INODE_NUMBER = s.DBFS_INODE_NUMBER)
    (h : Changes (fun _ => True) (Wrote B) s.db s'.db) : Keeps s s' :=
  ⟨hnumber, fun n hn => h.has n trivial hn⟩

theorem copy_file_range_keeps (src : UInt64) (offset_src : Nat) (dest : UInt64)
    (offset_dest len : Nat) (ctime : DbfsTimeSpec) (scratch : Scratch) : Keeps s
      (dbfs_common_copy_file_range src offset_src dest offset_dest len ctime scratch s).2 := by
  have hsteady : (dbfs_common_copy_file_range src offset_src dest offset_dest len ctime
      scratch).Steady := .bind (.read _) fun _ => .bind (.read _) fun _ => .bind (.write _)
    fun _ => .bind (.write _) fun _ => .pure _
  refine keeps_of_changes (hsteady s) (copy_file_range_changes
    (B := 2 ^ 64 + offset_dest + len) (fun n x hx => ?_) fun size _ => ?_)
  · have := fits_max s.db n x hx
    omega
  · omega

omit [Features] in
theorem dbfs_rename_keeps (old_dir new_dir : Inode) (old_name new_name : String) :
    Keeps s (dbfs_rename old_dir old_name new_dir new_name s).2 := by
  rcases dbfs_rename_state old_dir new_dir old_name new_name s with h | ⟨dirs, db', htx, h⟩
  · rw [h]
    exact ⟨rfl, fun _ hn => hn⟩
  · rw [h]
    refine ⟨rfl, fun n hn => ?_⟩
    obtain ⟨_, ⟨_, rfl⟩ | ⟨_, _, _, _, _, _, _, rfl⟩⟩ := dbfs_rename_tx_spec htx
    · simpa using hn
    · simpa [rename_texts] using hn

/-- The operations that may take a number. -/
def Op.Numbers : Op → Prop
  | .call _ _ c => c.Creates
  | .root_inode .. | .dbfs_create .. | .dbfs_mkdir .. | .dbfs_symlink .. => True
  | _ => False

theorem op_counts (op : Op) :
    Keeps s (op.after s) ∨ op.Numbers ∧ Takes s (op.after s) := by
  have hhooked : ∀ c, op.hooked = some c → (c.Creates → op.Numbers) →
      Keeps s (op.after s) ∨ op.Numbers ∧ Takes s (op.after s) := fun c hc hcreates => by
    rw [Op.after_hooked hc]
    exact (call_counts 0 0 c).imp_right (And.imp_left hcreates)
  cases op with
  | call r_uid r_gid c => exact call_counts r_uid r_gid c
  | copy_file_range => exact .inl (copy_file_range_keeps _ _ _ _ _ _ _)
  | root_inode uid gid ctime =>
    by_cases h : s.db.Has 1
    · rw [Op.after, root_inode_there uid gid ctime h]
      exact .inl (.refl s)
    · exact .inr ⟨trivial, root_inode_takes uid gid ctime h⟩
  | umount => exact .inl (keeps_of_changes (Fs.Steady.write _ s) (umount_changes (B := 0)))
  | sync_fs => exact .inl (keeps_of_changes (Fs.Steady.write _ s) (sync_fs_changes (B := 0)))
  | dbfs_rename old_dir old_name new_dir new_name =>
    exact .inl (dbfs_rename_keeps old_dir new_dir old_name new_name)
  | dbfs_setattr i key val =>
    exact .inl (keeps_of_changes (Fs.Steady.write _ s) (setattr_changes (B := 0) i key val))
  | dbfs_removeattr i key =>
    exact .inl (keeps_of_changes (Fs.Steady.write _ s) (removeattr_changes (B := 0) i key))
  | _ => exact hhooked _ rfl id

end takes

/-! ## The counter above the inodes -/

/-- The counter is above every inode. -/
def Ahead (s : Sys) : Prop := ∀ n, s.db.Has n → n < s.DBFS_INODE_NUMBER

/-- The counter has a next number. -/
def NumbersLeft (s : Sys) : Prop := s.DBFS_INODE_NUMBER.toNat + 1 < 2 ^ 64

section ahead

variable {s s' : Sys}

theorem Keeps.ahead (h : Keeps s s') (ha : Ahead s) : Ahead s' := fun n hn => by
  rw [h.1]
  exact ha n (h.2 n hn)

theorem Takes.ahead (h : Takes s s') (hroom : NumbersLeft s) (ha : Ahead s) :
    Ahead s' := fun n hn => by
  have hnext : s'.DBFS_INODE_NUMBER.toNat = s.DBFS_INODE_NUMBER.toNat + 1 := by
    rw [h.1, UInt64.toNat_add]
    exact Nat.mod_eq_of_lt hroom
  rw [UInt64.lt_iff_toNat_lt, hnext]
  rcases h.2 n hn with hold | rfl
  · exact Nat.lt_succ_of_lt (UInt64.lt_iff_toNat_lt.mp (ha n hold))
  · exact Nat.lt_succ_self _

variable [Features]

theorem create_tx_exists {number dir : UInt64} {name : String} {uid gid : UInt32}
    {t : DbfsTimeSpec} {permission : DbfsPermission} {target_path : Option String}
    {dev : Option UInt32} {db : Db}
    (h : create_tx number dir name uid gid t permission target_path dev db = .Err .FileExists) :
    db.Has number := by
  simp [create_tx, new_inode_tx] at h
  obtain ⟨_, _, _, _, _, _, _, _, _, _, _, _, hnumber⟩ := h
  exact hnumber

/-- With the counter above every inode no create meets an inode of its number. -/
theorem Ahead.create (ha : Ahead s) (dir : UInt64) (name : String) (uid gid : UInt32)
    (t : DbfsTimeSpec) (permission : DbfsPermission) (target_path : Option String)
    (dev : Option UInt32) :
    (dbfs_common_create dir name uid gid t permission target_path dev s).1 ≠
      .Err .FileExists := by
  unfold dbfs_common_create
  change ((Fs.write (create_tx s.DBFS_INODE_NUMBER dir name uid gid t permission target_path dev)
    >>= _) { s with DBFS_INODE_NUMBER := s.DBFS_INODE_NUMBER + 1 }).1 ≠ _
  rw [Fs.bind_write]
  rcases htx : create_tx s.DBFS_INODE_NUMBER dir name uid gid t permission target_path dev s.db
    with ⟨r, db'⟩ | e | _
  · rcases DbfsFileType.from permission with _ | kind
    · nofun
    · nofun
  · rintro h
    cases h
    exact lt_irrefl _ (ha _ (create_tx_exists htx))
  · nofun

end ahead

/-! ## Sessions -/

/-- The front ends. The FUSE one makes the root inode as the user of the process. -/
inductive Front where
  | fuse (uid gid : UInt32) (time : DbfsTimeSpec)
  | rvfs

namespace Front

def mount [Features] : Front → Fs Unit
  | fuse uid gid time => fuse_init uid gid time
  | rvfs => do
    let _ ← dbfs_get_super_blk
    pure ()

def unmount : Front → Fs Unit
  | fuse .. => dbfs_fuse_destroy
  | rvfs => dbfs_kill_super_blk

end Front

/-- A database that no process has mounted, or the state of the process that has. -/
inductive Phase where
  | rest (db : Db)
  | mounted (front : Front) (s : Sys)

/-- The phase after a mount, which may fail. -/
def Phase.mount [Features] (front : Front) (db : Db) : Phase :=
  match front.mount (start db) with
  | (.Ok _, s) => .mounted front s
  | (_, s) => .rest s.db

/-- The steps of sessions. A mount is in a new process; the conditions are on the database that
FUSE mounts and on the state before an operation. -/
inductive SessionStep [Features] (blank : Db → Prop) (room : Op → Sys → Prop) :
    Phase → Phase → Prop
  | fuse (uid gid : UInt32) (time : DbfsTimeSpec) (db : Db) : blank db →
      SessionStep blank room (.rest db) (Phase.mount (.fuse uid gid time) db)
  | rvfs (db : Db) : SessionStep blank room (.rest db) (Phase.mount .rvfs db)
  | op (front : Front) (s : Sys) (op : Op) : room op s →
      SessionStep blank room (.mounted front s) (.mounted front (op.after s))
  | unmount (front : Front) (s : Sys) :
      SessionStep blank room (.mounted front s) (.rest (front.unmount s).2.db)

/-- There is no inode yet. -/
def Blank (db : Db) : Prop := ∀ n, ¬ db.Has n

/-- No inode has a number that the counter gives. -/
def Unnumbered (db : Db) : Prop := ∀ n, db.Has n → n = 0

/-- The phases that rows of sessions reach from a database without inodes. -/
def Sessions [Features] (blank : Db → Prop) (room : Op → Sys → Prop) (phase : Phase) : Prop :=
  ∃ db : Db, Blank db ∧ Relation.ReflTransGen (SessionStep blank room) (.rest db) phase

/-- The number that the super block keeps is above every inode. -/
def Saved (db : Db) : Prop :=
  ∀ c, (db.sb .continue_number).bind common.usize = some c → ∀ n, db.Has n → n.toNat < c

def Phase.Good : Phase → Prop
  | rest db => Saved db
  | mounted _ s => Ahead s

section sessions

theorem saved_of_blank {db : Db} (h : Blank db) : Saved db := fun _ _ n hn => absurd hn (h n)

theorem umount_saves {s : Sys} (h : s.db.super_blk.isSome) : (dbfs_common_umount s).2.db =
    s.db.sb_put .continue_number (be_usize s.DBFS_INODE_NUMBER.toNat) := by
  have hwrite : dbfs_common_umount s = (.Ok (), { s with
      db := s.db.sb_put .continue_number (be_usize s.DBFS_INODE_NUMBER.toNat) }) := by
    unfold dbfs_common_umount
    rw [Fs.write_ok]
    exact ⟨_, by simpa using h, rfl⟩
  rw [hwrite]

theorem umount_drops {s : Sys} (h : s.db.super_blk = none) : (dbfs_common_umount s).2 = s := by
  unfold dbfs_common_umount
  rcases Fs.write_state _ s with hs | ⟨_, _, htx, _⟩
  · exact hs
  · simp [h] at htx

theorem Ahead.saved {s : Sys} (h : Ahead s) (front : Front) : Saved (front.unmount s).2.db := by
  have humount : front.unmount = dbfs_common_umount := by
    cases front with
    | fuse => rfl
    | rvfs => rfl
  rw [humount]
  intro c hc n hn
  rcases hsb : s.db.super_blk with _ | sb
  · -- there is no number to restore
    rw [umount_drops hsb, Db.sb, hsb] at hc
    cases hc
  · have hsome : s.db.super_blk.isSome := by rw [hsb]; rfl
    rw [umount_saves hsome] at hc hn
    rw [Db.sb_sb_put, if_pos ⟨rfl, hsome⟩, Option.bind_some,
      usize_be s.DBFS_INODE_NUMBER.toNat_lt] at hc
    cases hc
    exact UInt64.lt_iff_toNat_lt.mp (h n hn)

variable [Features]

/-- A root inode that is not made leaves the database as it is. -/
theorem root_inode_dropped {uid gid : UInt32} {ctime : DbfsTimeSpec} {s : Sys}
    (h : ∀ k, (dbfs_common_root_inode uid gid ctime s).1 ≠ .Ok k) :
    (dbfs_common_root_inode uid gid ctime s).2.db = s.db := by
  have hwrite : ∀ (x : Tx Nat) (s : Sys), (∀ k, (Fs.write x s).1 ≠ .Ok k) →
      (Fs.write x s).2.db = s.db := fun x s hx => by
    rcases Fs.write_state x s with hs | ⟨k, _, _, hs⟩
    · rw [hs]
    · exact absurd (congrArg Prod.fst hs) (hx k)
  by_cases hone : s.db.Has 1
  · rw [dbfs_common_root_inode, if_pos hone] at h ⊢
    exact hwrite _ s h
  · rw [root_inode_fresh _ _ _ hone] at h ⊢
    split_ifs at h ⊢
    · exact hwrite _ _ h
    · rfl

theorem mount_good {front : Front} {db : Db}
    (hok : ∀ s, front.mount (start db) = (.Ok (), s) → Ahead s)
    (hfail : (∀ r, (front.mount (start db)).1 ≠ .Ok r) → Saved (front.mount (start db)).2.db) :
    (Phase.mount front db).Good := by
  unfold Phase.mount
  rcases hm : front.mount (start db) with ⟨_ | e | _, s⟩ <;> rw [hm] at hfail
  · exact hok s hm
  · exact hfail nofun
  · exact hfail nofun

/-- The root inode decides whether a mount is good: it is asked for with the counter above the
inodes, and with a number left where it takes one. -/
theorem root_inode_good (uid gid : UInt32) (ctime : DbfsTimeSpec) {s : Sys} (ha : Ahead s)
    (hroom : ¬ s.db.Has 1 → NumbersLeft s) : Ahead (dbfs_common_root_inode uid gid ctime s).2 := by
  by_cases hone : s.db.Has 1
  · rwa [root_inode_there uid gid ctime hone]
  · exact (root_inode_takes uid gid ctime hone).ahead (hroom hone) ha

theorem fuse_init_eq (uid gid : UInt32) (time : DbfsTimeSpec) (db : Db) :
    ∃ db₁ : Db, (∀ n, db₁.Has n ↔ db.Has n) ∧ fuse_init uid gid time (start db) =
      (dbfs_common_root_inode uid gid time >>= fun _ => pure ()) (start db₁) := by
  have hinit : ∃ db₁ : Db, (∀ n, db₁.Has n ↔ db.Has n) ∧
      init_db FILE_SIZE (start db) = (.Ok (), start db₁) := by
    unfold init_db
    rcases hsb : (start db).db.super_blk with _ | sb
    · exact ⟨⟨some (new_super_blk FILE_SIZE), db.inodes⟩, fun _ => Iff.rfl, rfl⟩
    · exact ⟨db, fun _ => Iff.rfl, rfl⟩
  obtain ⟨db₁, hhas, hinit⟩ := hinit
  refine ⟨db₁, hhas, ?_⟩
  rw [fuse_init, Fs.bind_eq, hinit]

/-- The first mount makes the root inode. -/
theorem root_inode_start (uid gid : UInt32) (time : DbfsTimeSpec) {db : Db} (h : ¬ db.Has 1) :
    dbfs_common_root_inode uid gid time (start db) =
      (.Ok 1, ⟨(db.create 1).puts 1 (root_fields uid gid time), 2, ∅⟩) := by
  have hfresh := root_inode_fresh uid gid time (s := start db) h
  rw [hfresh, start, if_pos rfl, Fs.write_ok]
  exact ⟨_, new_root_tx_eq uid gid time h, rfl⟩

/-- After a FUSE mount the counter is above the inodes only where there was none that the
counter gives. -/
theorem fuse_ahead_iff (uid gid : UInt32) (time : DbfsTimeSpec) (db : Db) :
    Ahead (fuse_init uid gid time (start db)).2 ↔ Unnumbered db := by
  obtain ⟨db₁, hhas, heq⟩ := fuse_init_eq uid gid time db
  rw [heq, Fs.discard_state]
  constructor
  · intro ha n hn
    by_cases hone : db₁.Has 1
    · have hthere := root_inode_there uid gid time (s := start db₁) hone
      rw [hthere] at ha
      exact absurd (ha 1 hone) (lt_irrefl _)
    · rw [root_inode_start uid gid time hone] at ha
      have hlt : n.toNat < 2 := UInt64.lt_iff_toNat_lt.mp (ha n (by simp [hhas, hn]))
      have hne : n ≠ 1 := fun h1 => hone ((hhas 1).mpr (h1 ▸ hn))
      rw [Ne, ← UInt64.toNat_inj] at hne
      change ¬ n.toNat = 1 at hne
      exact UInt64.toNat_inj.mp (show n.toNat = 0 by omega)
  · intro hu
    refine root_inode_good uid gid time (fun n hn => ?_) fun _ => (by decide : 1 + 1 < 2 ^ 64)
    rw [hu n ((hhas n).mp hn)]
    exact (by decide : (0 : UInt64) < 1)

theorem fuse_good (uid gid : UInt32) (time : DbfsTimeSpec) {db : Db} (h : Unnumbered db) :
    (Phase.mount (.fuse uid gid time) db).Good := by
  have ha := (fuse_ahead_iff uid gid time db).mpr h
  refine mount_good (fun s hs => ?_) fun hfail => ?_
  · rwa [show fuse_init uid gid time (start db) = _ from hs] at ha
  obtain ⟨db₁, hhas, heq⟩ := fuse_init_eq uid gid time db
  have hone : ¬ db₁.Has 1 := fun hn => absurd (h 1 ((hhas 1).mp hn)) (by decide)
  refine absurd ?_ (hfail ())
  rw [Front.mount, heq, Fs.bind_eq, root_inode_start uid gid time hone]
  rfl

omit [Features] in
theorem create_simple_super_blk_ok {s s' : Sys} {r : UInt32 × UInt32}
    (h : dbfs_create_simple_super_blk s = (.Ok r, s')) :
    ∃ c, (s.db.sb .continue_number).bind common.usize = some c ∧
      s' = { s with DBFS_INODE_NUMBER := UInt64.ofNat c } := by
  unfold dbfs_create_simple_super_blk at h
  simp [store_number] at h
  obtain ⟨c, ⟨_, hc⟩, _, hs⟩ := h
  exact ⟨c, hc, hs⟩

omit [Features] in
theorem create_simple_super_blk_db (s : Sys) : (dbfs_create_simple_super_blk s).2.db = s.db := by
  unfold dbfs_create_simple_super_blk
  rw [Fs.bind_read]
  rcases (map_err .Other get_super_blk >>= fun _ => sb_usize .continue_number) s.db with
    ⟨c, db'⟩ | e | _
  · change (Fs.read _ { s with DBFS_INODE_NUMBER := UInt64.ofNat c }).2.db = s.db
    rw [Fs.read_state]
  · rfl
  · rfl

theorem rvfs_ok {db : Db} {s : Sys} (h : Front.rvfs.mount (start db) = (.Ok (), s)) :
    ∃ c, (db.sb .continue_number).bind common.usize = some c ∧ (¬ db.Has 1 → c = 1) ∧
      s = (dbfs_common_root_inode 0 0 .default
        { start db with DBFS_INODE_NUMBER := UInt64.ofNat c }).2 := by
  simp only [Front.mount, dbfs_get_super_blk, Fs.bind_ok] at h
  obtain ⟨k, s₂, ⟨r, s₁, hsimple, hroot⟩, hpure⟩ := h
  obtain ⟨c, hc, rfl⟩ := create_simple_super_blk_ok hsimple
  obtain ⟨v, _, hv⟩ := Option.bind_eq_some_iff.mp hc
  cases hpure
  refine ⟨c, hc, fun hone => ?_, (congrArg Prod.snd hroot).symm⟩
  have hfresh := root_inode_fresh 0 0 .default
    (s := { start db with DBFS_INODE_NUMBER := UInt64.ofNat c }) hone
  rw [hfresh] at hroot
  split_ifs at hroot with hc1
  · have hmod := congrArg UInt64.toNat hc1
    rwa [UInt64.toNat_ofNat', Nat.mod_eq_of_lt (usize_lt hv)] at hmod
  · cases hroot

theorem rvfs_fails {db : Db} (h : ∀ r, (Front.rvfs.mount (start db)).1 ≠ .Ok r) :
    (Front.rvfs.mount (start db)).2.db = db := by
  have hdb := create_simple_super_blk_db (start db)
  rw [Front.mount, Fs.discard_state, dbfs_get_super_blk, Fs.bind_eq]
  rcases hsimple : dbfs_create_simple_super_blk (start db) with ⟨r | e | _, s⟩ <;>
    rw [hsimple] at hdb
  · change (dbfs_common_root_inode 0 0 .default s).2.db = db
    rw [root_inode_dropped fun k hk => ?_]
    · exact hdb
    · have hget : dbfs_get_super_blk (start db) =
          (.Ok k, (dbfs_common_root_inode 0 0 .default s).2) :=
        Fs.bind_ok.mpr ⟨r, s, hsimple, Prod.ext hk rfl⟩
      have hmount : Front.rvfs.mount (start db) =
          (.Ok (), (dbfs_common_root_inode 0 0 .default s).2) :=
        Fs.bind_ok.mpr ⟨k, _, hget, Fs.pure_ok.mpr ⟨rfl, rfl⟩⟩
      exact h () (congrArg Prod.fst hmount)
  · exact hdb
  · exact hdb

/-- The rvfs mount starts from the number that the super block keeps. -/
theorem rvfs_good {db : Db} (h : Saved db) : (Phase.mount .rvfs db).Good := by
  refine mount_good (fun s hs => ?_) fun hfail => ?_
  · obtain ⟨c, hc, hone, rfl⟩ := rvfs_ok hs
    obtain ⟨v, _, hv⟩ := Option.bind_eq_some_iff.mp hc
    refine root_inode_good 0 0 .default (fun n hn => ?_) fun hroot => ?_
    · have hn := h c hc n hn
      rwa [UInt64.lt_iff_toNat_lt, UInt64.toNat_ofNat', Nat.mod_eq_of_lt (usize_lt hv)]
    · rw [hone hroot]
      exact (by decide : 1 + 1 < 2 ^ 64)
  · rwa [rvfs_fails hfail]

/-- The conditions on a run of sessions: FUSE mounts a database that has no inode, and an
operation that takes a number finds one more. -/
def Numbered (phase : Phase) : Prop :=
  Sessions Unnumbered (fun op s => op.Numbers → NumbersLeft s) phase

theorem session_step_good {phase phase' : Phase}
    (h : SessionStep Unnumbered (fun op s => op.Numbers → NumbersLeft s) phase phase')
    (hg : phase.Good) :
    phase'.Good := by
  cases h with
  | fuse uid gid time db hu => exact fuse_good uid gid time hu
  | rvfs db => exact rvfs_good hg
  | op front s op hroom =>
    rcases op_counts op with hkeeps | ⟨hnumbers, htakes⟩
    · exact hkeeps.ahead hg
    · exact htakes.ahead (hroom hnumbers) hg
  | unmount front s => exact Ahead.saved hg front

theorem sessions_good {phase : Phase} (h : Numbered phase) : phase.Good := by
  obtain ⟨db, hblank, hrun⟩ := h
  induction hrun with
  | refl => exact saved_of_blank hblank
  | tail _ hstep ih => exact session_step_good hstep ih

/-- Where FUSE mounts only a database without inodes and the counter does not reach its end,
the counter of every mounted state is above all inodes, and no create fails for its number. A
FUSE mount of any other database leaves the counter at or below an inode. -/
theorem numbers_fresh :
    (∀ front s, Numbered (.mounted front s) → (∀ n, s.db.Has n → n < s.DBFS_INODE_NUMBER) ∧
      ∀ dir name uid gid t permission target_path dev,
        (dbfs_common_create dir name uid gid t permission target_path dev s).1 ≠
          .Err .FileExists) ∧
    ∀ uid gid time db, (∀ n, (fuse_init uid gid time (start db)).2.db.Has n →
      n < (fuse_init uid gid time (start db)).2.DBFS_INODE_NUMBER) ↔ Unnumbered db := by
  refine ⟨fun front s h => ?_, fun uid gid time db => fuse_ahead_iff uid gid time db⟩
  have ha : Ahead s := sessions_good h
  exact ⟨ha, fun dir name uid gid t permission target_path dev =>
    ha.create dir name uid gid t permission target_path dev⟩

theorem mount_of_ok {front : Front} {db : Db} (h : (front.mount (start db)).1 = .Ok ()) :
    Phase.mount front db = .mounted front (front.mount (start db)).2 := by
  unfold Phase.mount
  rcases hm : front.mount (start db) with ⟨r, s⟩
  obtain rfl : r = .Ok () := by rwa [hm] at h
  rfl

end sessions

section sample

attribute [local instance] sli512_features

def fuse_root : Front := .fuse 0 0 .default

/-- A FUSE session on an empty database that does nothing more than make the root inode. -/
def first_session : Db := (fuse_root.unmount (new_fs 0 0 .default)).2.db

theorem first_session_run {blank : Db → Prop} {room : Op → Sys → Prop} (h : blank empty_db) :
    Sessions blank room (.rest first_session) := by
  have hmount : Phase.mount fuse_root empty_db = .mounted fuse_root (new_fs 0 0 .default) :=
    mount_of_ok (by decide +kernel)
  have hfuse : SessionStep blank room (.rest empty_db) (Phase.mount fuse_root empty_db) :=
    .fuse 0 0 .default empty_db h
  rw [hmount] at hfuse
  refine ⟨empty_db, fun n hn => ?_, (Relation.ReflTransGen.single hfuse).tail (.unmount _ _)⟩
  simp [Db.Has, Store.Has, empty_db] at hn

theorem Sessions.remount {blank : Db → Prop} {room : Op → Sys → Prop} {front : Front} {db : Db}
    (h : Sessions blank room (.rest db)) (hok : (front.mount (start db)).1 = .Ok ())
    (hstep : SessionStep blank room (.rest db) (Phase.mount front db)) :
    Sessions blank room (.mounted front (front.mount (start db)).2) := by
  obtain ⟨db₀, hblank, hrun⟩ := h
  rw [mount_of_ok hok] at hstep
  exact ⟨db₀, hblank, hrun.tail hstep⟩

/-- A second FUSE session starts again at 1, the number of the root. -/
theorem second_session_collides :
    Sessions (fun _ => True) (fun _ _ => True)
        (.mounted fuse_root (fuse_root.mount (start first_session)).2) ∧
      (fuse_root.mount (start first_session)).2.db.Has 1 ∧
      (fuse_root.mount (start first_session)).2.DBFS_INODE_NUMBER = 1 ∧
      (dbfs_common_create 1 "f" 0 0 .default (DbfsPermission.S_IFREG ||| 0o644) none none
        (fuse_root.mount (start first_session)).2).1 = .Err .FileExists := by
  have hrun : Sessions (fun _ => True) (fun _ _ => True) (.rest first_session) :=
    first_session_run trivial
  exact ⟨hrun.remount (by decide +kernel) (.fuse 0 0 .default _ trivial), by decide +kernel,
    by decide +kernel, by decide +kernel⟩

/-- An rvfs session after it goes on at 2. -/
theorem rvfs_session_goes_on :
    Numbered (.mounted .rvfs (Front.rvfs.mount (start first_session)).2) ∧
      (Front.rvfs.mount (start first_session)).2.DBFS_INODE_NUMBER = 2 ∧
      (∀ n, (Front.rvfs.mount (start first_session)).2.db.Has n →
        n < (Front.rvfs.mount (start first_session)).2.DBFS_INODE_NUMBER) ∧
      ¬ Unnumbered first_session := by
  have hempty : Unnumbered empty_db := fun n hn => by
    simp [Db.Has, Store.Has, empty_db] at hn
  have hrun : Numbered (.mounted .rvfs (Front.rvfs.mount (start first_session)).2) :=
    Sessions.remount (first_session_run hempty) (by decide +kernel) (.rvfs _)
  refine ⟨hrun, by decide +kernel, (numbers_fresh.1 _ _ hrun).1, fun h => ?_⟩
  exact absurd (h 1 (by decide +kernel)) (by decide)

end sample

end dbfs2
