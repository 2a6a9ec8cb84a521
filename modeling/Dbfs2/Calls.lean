-- The calls of a requester as data, and what one call may change. Three calls write
-- the mode or the owner of an inode that is there, and one makes a new inode; in all
-- other buckets every call leaves owner, group, mode and device as they are.
import Dbfs2.Changes

namespace dbfs2

open common Tx inode attr file

/-! ## The calls -/

inductive Call [Features] where
  | naming (call : NameCall)
  | unlink_ino (dir : UInt64) (name : String) (ino : UInt64) (c_time : DbfsTimeSpec)
  | write (ino : UInt64) (buf : Bytes) (offset : Nat) (scratch : Scratch)
  | truncate (ino : UInt64) (ctime : DbfsTimeSpec) (f_size : UInt64)
  | fallocate (ino : UInt64) (offset size : Nat) (mode : UInt32) (ctime : DbfsTimeSpec)
  | setxattr (ino : UInt64) (key : String) (value : Bytes) (ctime : DbfsTimeSpec)
  | removexattr (ino : UInt64) (key : String) (ctime : DbfsTimeSpec)
  | chmod (ino : UInt64) (mode : UInt16) (ctime : DbfsTimeSpec)
  | chown (ino : UInt64) (uid gid : Option UInt32) (c_time : DbfsTimeSpec)
  | utimens (ino : UInt64) (atime mtime : Option DbfsTimeSpec) (c_time : DbfsTimeSpec)

namespace Call

variable [Features]

/-- The call of a requester. -/
def run (r_uid r_gid : UInt32) : Call → Fs Unit
  | naming call => call.run r_uid r_gid
  | unlink_ino dir name ino c_time => dbfs_common_unlink r_uid r_gid dir name (some ino) c_time
  | write ino buf offset scratch => do
    let _ ← dbfs_common_write ino buf offset scratch
    pure ()
  | truncate ino ctime f_size => do
    let _ ← dbfs_common_truncate r_uid r_gid ino ctime f_size
    pure ()
  | fallocate ino offset size mode ctime =>
    dbfs_common_fallocate r_uid r_gid ino offset size mode ctime
  | setxattr ino key value ctime => dbfs_common_setxattr r_uid r_gid ino key value ctime
  | removexattr ino key ctime => dbfs_common_removexattr r_uid r_gid ino key ctime
  | chmod ino mode ctime => do
    let _ ← dbfs_common_chmod r_uid r_gid ino mode ctime
    pure ()
  | chown ino uid gid c_time => do
    let _ ← dbfs_common_chown r_uid r_gid ino uid gid c_time
    pure ()
  | utimens ino atime mtime c_time => do
    let _ ← dbfs_common_utimens r_uid r_gid ino atime mtime c_time
    pure ()

/-- The call neither makes inode `n` nor writes its mode or owner. -/
def Spares (s : Sys) (n : UInt64) : Call → Prop
  | naming (.create ..) => n ≠ s.DBFS_INODE_NUMBER
  | truncate ino _ _ => n ≠ ino
  | chmod ino _ _ => n ≠ ino
  | chown ino _ _ _ => n ≠ ino
  | _ => True

/-- The sizes that the call writes are at most `B`, if no stored size is above `B`. -/
def Fits (B : Nat) (db : Db) : Call → Prop
  | naming (.create dir ..) => db.MayGrow B dir
  | naming (.link _ new_ino ..) => db.MayGrow B new_ino
  | naming (.rename _ _ new_dir ..) => db.MayGrow B new_dir
  | write _ buf offset _ => offset + buf.length < 2 ^ 64 → offset + buf.length ≤ B
  | truncate _ _ f_size => f_size.toNat ≤ B
  | fallocate _ offset size mode _ =>
    mode &&& FALLOC_FL_KEEP_SIZE = 0 → offset + size < 2 ^ 64 → offset + size ≤ B
  | _ => True

end Call

/-! ## The calls that write modes and owners -/

section state

variable {r_uid r_gid : UInt32} {ino : UInt64} {s : Sys}

/-- What chmod and chown store. -/
def chmodded (db : Db) (ino : UInt64) (mode : DbfsPermission) (t : DbfsTimeSpec) : Db :=
  (db.put ino Field.mode.key (be_u16 mode)).put ino Field.ctime.key t.to_be_bytes

def chowned (db : Db) (ino : UInt64) (uid gid : UInt32) (mode : DbfsPermission)
    (t : DbfsTimeSpec) : Db :=
  (((db.put ino Field.uid.key (be_u32 uid)).put ino Field.gid.key (be_u32 gid)).put ino
    Field.mode.key (be_u16 mode)).put ino Field.ctime.key t.to_be_bytes

/-- Chmod by root, or by the owner who is in the group too. -/
theorem chmod_state (mode : UInt16) (t : DbfsTimeSpec) :
    (dbfs_common_chmod r_uid r_gid ino mode t s).2 = s ∨
      ∃ attr db₁, attr_tx ino s.db = .Ok (attr, db₁) ∧ (r_uid = 0 ∨ r_uid = attr.uid) ∧
        (dbfs_common_chmod r_uid r_gid ino mode t s).2 =
          { s with db := chmodded s.db ino (chmod_mode attr.perm mode) t } := by
  unfold dbfs_common_chmod dbfs_common_attr
  rw [Fs.map_err_read, Fs.bind_read]
  rcases hattr : Tx.map_err .Other (attr_tx ino) s.db with ⟨attr, db₁⟩ | e | _
  · simp only [Fs.bind_ensure]
    split_ifs with h1 h2 hne
    · rw [Fs.bind_write]
      rcases htx : chmod_tx ino (chmod_mode attr.perm mode) t s.db with ⟨_, db'⟩ | e | _
      · simp [chmod_tx] at htx
        obtain ⟨_, rfl⟩ := htx
        exact .inr ⟨attr, db₁, map_err_ok.mp hattr, by simpa using h1, rfl⟩
      · exact .inl rfl
      · exact .inl rfl
    · exact .inl rfl
    · exact .inl rfl
    · exact .inl rfl
  · exact .inl rfl
  · exact .inl rfl

/-- Chown by root, or within the limits of the owner: the owner stays, and the group becomes
that of the requester. Who names neither may be anyone. -/
theorem chown_state (uid gid : Option UInt32) (t : DbfsTimeSpec) :
    (dbfs_common_chown r_uid r_gid ino uid gid t s).2 = s ∨
      ∃ attr db₁, attr_tx ino s.db = .Ok (attr, db₁) ∧
        (r_uid ≠ 0 → (∀ x, uid = some x → x = attr.uid) ∧
          ∀ x, gid = some x → x = r_gid ∧ r_uid = attr.uid) ∧
        (dbfs_common_chown r_uid r_gid ino uid gid t s).2 =
          { s with db := (chowned s.db ino (uid.getD attr.uid) (gid.getD attr.gid)
              (chown_mode attr.perm uid gid) t) } := by
  unfold dbfs_common_chown dbfs_common_attr
  rw [Fs.map_err_read, Fs.bind_read]
  rcases hattr : Tx.map_err .Other (attr_tx ino) s.db with ⟨attr, db₁⟩ | e | _
  · simp only [Fs.bind_ensure]
    split_ifs with hgid huid howner
    · rw [Fs.bind_write]
      rcases htx : chown_tx ino (uid.getD attr.uid) (gid.getD attr.gid)
        (chown_mode attr.perm uid gid) t s.db with ⟨_, db'⟩ | e | _
      · simp [chown_tx] at htx
        obtain ⟨_, rfl⟩ := htx
        refine .inr ⟨attr, db₁, map_err_ok.mp hattr, fun hroot => ⟨?_, ?_⟩, rfl⟩
        · rintro x rfl
          simp [hroot] at huid
          exact huid.1
        · rintro x rfl
          simp [hroot] at hgid howner
          exact ⟨hgid.symm, howner⟩
      · exact .inl rfl
      · exact .inl rfl
    · exact .inl rfl
    · exact .inl rfl
    · exact .inl rfl
  · exact .inl rfl
  · exact .inl rfl

theorem truncate_state [Features] (t : DbfsTimeSpec) (f_size : UInt64) :
    (dbfs_common_truncate r_uid r_gid ino t f_size s).2 = s ∨
      ∃ attr a db₁ db', attr_tx ino s.db = .Ok (attr, db₁) ∧
        truncate_tx ino t f_size attr s.db = .Ok (a, db') ∧
        (dbfs_common_truncate r_uid r_gid ino t f_size s).2 = { s with db := db' } := by
  unfold dbfs_common_truncate
  have hstate := truncate_attr_state r_uid r_gid ino s
  rw [Fs.bind_eq]
  rcases hattr : truncate_attr r_uid r_gid ino s with ⟨attr | e | _, s'⟩
  · rw [hattr] at hstate
    subst hstate
    simp only
    rcases Fs.write_state (truncate_tx ino t f_size attr) s' with h | ⟨a, db', htx, h⟩
    · exact .inl h
    · simp only [truncate_attr, dbfs_common_attr, Fs.bind_ok, Fs.map_err_ok, Fs.read_ok,
        Fs.ensure_ok, Fs.pure_ok] at hattr
      obtain ⟨_, _, ⟨⟨db₁, hattr⟩, rfl⟩, _, _, ⟨_, rfl⟩, rfl, _⟩ := hattr
      exact .inr ⟨attr, a, db₁, db', hattr, htx, congrArg Prod.snd h⟩
  · rw [hattr] at hstate
    exact .inl hstate
  · rw [hattr] at hstate
    exact .inl hstate

theorem utimens_state (atime mtime : Option DbfsTimeSpec) (t : DbfsTimeSpec) :
    (dbfs_common_utimens r_uid r_gid ino atime mtime t s).2 = s ∨
      ∃ db', utimens_tx ino atime mtime t s.db = .Ok ((), db') ∧
        (dbfs_common_utimens r_uid r_gid ino atime mtime t s).2 = { s with db := db' } := by
  unfold dbfs_common_utimens dbfs_common_attr
  rw [Fs.bind_read]
  rcases attr_tx ino s.db with ⟨attr, db₁⟩ | e | _
  · simp only [Fs.bind_ensure]
    split_ifs
    · rw [Fs.bind_write]
      rcases htx : utimens_tx ino atime mtime t s.db with ⟨_, db'⟩ | e | _
      · exact .inr ⟨db', rfl, rfl⟩
      · exact .inl rfl
      · exact .inl rfl
    · exact .inl rfl
    · exact .inl rfl
  · exact .inl rfl
  · exact .inl rfl

end state

/-! ## What one call changes -/

section changes

variable [Features] {B : Nat} {W : Bytes → Option Bytes → Prop} {s : Sys}

omit [Features] in
/-- A call that is one write transaction changes what the transaction changes. -/
theorem Changes.of_write {α : Type} {P : UInt64 → Prop} {x : Tx α}
    (h : ∀ a db', x s.db = .Ok (a, db') → Changes P W s.db db') :
    Changes P W s.db (Fs.write x s).2.db := by
  rcases Fs.write_state x s with hs | ⟨a, db', htx, hs⟩
  · rw [hs]
    exact .refl _
  · rw [hs]
    exact h a db' htx

theorem naming_changes (hW : ∀ k o, Wrote B k o → W k o)
    (hlinks : (∀ n, s.db.usize n .hard_links = none) ∨
      ∀ x, W Field.hard_links.key (some (be_usize x)))
    (hB : s.db.Fits B) (call : NameCall) (hfit : (Call.naming call).Fits B s.db)
    (r_uid r_gid : UInt32) :
    Changes (fun n => (Call.naming call).Spares s n) W s.db (call.run r_uid r_gid s).2.db := by
  cases call with
  | create dir name t permission target_path dev =>
    rw [NameCall.run, Fs.discard_state]
    rcases create_db dir permission target_path dev s with h | ⟨r, htx⟩
    · rw [h]
      exact .refl _
    · exact (create_changes htx hfit).mono (fun _ => id) hW
  | link ino new_ino name t =>
    rw [NameCall.run, Fs.discard_state]
    rcases link_db ino new_ino s with h | htx
    · rw [h]
      exact .refl _
    · exact (link_changes htx hfit).mono (fun _ => id) hW
  | unlink dir name t =>
    exact .of_write fun _ _ htx => (unlink_changes htx hB).mono (fun _ => id) hW
  | rmdir p_ino name t =>
    exact .of_write fun _ _ htx => (rmdir_changes htx hB).mono (fun _ => id) hW
  | rename old_dir old_name new_dir new_name flags t =>
    rw [NameCall.run]
    rcases rename_state old_dir new_dir old_name new_name flags s with
      h | ⟨old, new, db', _, _, h, ⟨_, number, _, htx⟩ | ⟨_, _, htx⟩⟩
    · rw [h]
      exact .refl _
    · rw [h]
      exact (rename_exchange_changes htx).mono (fun _ => id) hW
    · rw [h]
      exact rename_move_changes hW htx hlinks hB hfit

/-- The buckets that a call spares keep everything but what `Wrote` says. -/
theorem call_changes (hW : ∀ k o, Wrote B k o → W k o)
    (hlinks : (∀ n, s.db.usize n .hard_links = none) ∨
      ∀ x, W Field.hard_links.key (some (be_usize x)))
    (hB : s.db.Fits B) (call : Call) (hfit : call.Fits B s.db) (r_uid r_gid : UInt32) :
    Changes (fun n => call.Spares s n) W s.db (call.run r_uid r_gid s).2.db := by
  cases call with
  | naming call => exact naming_changes hW hlinks hB call hfit r_uid r_gid
  | unlink_ino dir name ino t =>
    exact .of_write fun _ _ htx => (unlink_changes htx hB).mono (fun _ => id) hW
  | write ino buf offset scratch =>
    rw [Call.run, Fs.discard_state]
    exact .of_write fun _ _ htx => (write_changes htx hB hfit).mono (fun _ => id) hW
  | truncate ino t f_size =>
    rw [Call.run, Fs.discard_state]
    rcases truncate_state t f_size with h | ⟨attr, a, _, db', _, htx, h⟩
    · rw [h]
      exact .refl _
    · rw [h]
      obtain ⟨db₁, hch, rfl⟩ := truncate_changes htx hfit
      exact (hch.mono (fun _ => id) hW).put fun hne => absurd rfl hne
  | fallocate ino offset size mode t =>
    exact .of_write fun _ _ htx => (fallocate_changes htx hfit).mono (fun _ => id) hW
  | setxattr ino key value t =>
    exact .of_write fun _ _ htx => (setxattr_changes htx).mono (fun _ => id) hW
  | removexattr ino key t =>
    rw [Call.run, dbfs_common_removexattr, Fs.dropped, Fs.read_state]
    exact .refl _
  | chmod ino mode t =>
    rw [Call.run, Fs.discard_state]
    rcases chmod_state mode t with h | ⟨attr, _, _, _, h⟩
    · rw [h]
      exact .refl _
    · rw [h]
      exact ((Changes.refl _).put fun hne => absurd rfl hne).put fun hne => absurd rfl hne
  | chown ino uid gid t =>
    rw [Call.run, Fs.discard_state]
    rcases chown_state uid gid t with h | ⟨attr, _, _, _, h⟩
    · rw [h]
      exact .refl _
    · rw [h]
      exact ((((Changes.refl _).put fun hne => absurd rfl hne).put fun hne => absurd rfl hne).put
        fun hne => absurd rfl hne).put fun hne => absurd rfl hne
  | utimens ino atime mtime t =>
    rw [Call.run, Fs.discard_state]
    rcases utimens_state atime mtime t with h | ⟨db', htx, h⟩
    · rw [h]
      exact .refl _
    · rw [h]
      exact (utimens_changes htx).mono (fun _ => id) hW

end changes

end dbfs2
