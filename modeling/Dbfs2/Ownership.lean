-- Owner, group and mode over whole runs: what a requester other than root can do to
-- the inodes of others, by any calls in any order. Every call has its own checks, and
-- extended attributes and entries stand in the same bucket as the fields.
import Dbfs2.Calls

namespace dbfs2

open common Tx inode attr file

/-! ## Set-id bits -/

/-- A mode that is another one without some of its set-id bits. -/
structure Trimmed (p p' : DbfsPermission) : Prop where
  type : p' &&& DbfsPermission.S_IFMT = p &&& DbfsPermission.S_IFMT
  perm : p' &&& 0o777 = p &&& 0o777
  suid : p'.contains DbfsPermission.S_ISUID = true → p.contains DbfsPermission.S_ISUID = true

namespace Trimmed

variable {p p' q : DbfsPermission}

theorem refl (p : DbfsPermission) : Trimmed p p := ⟨rfl, rfl, id⟩

theorem trans {p'' : DbfsPermission} (h : Trimmed p p') (h' : Trimmed p' p'') : Trimmed p p'' :=
  ⟨h'.type.trans h.type, h'.perm.trans h.perm, fun hs => h.suid (h'.suid hs)⟩

theorem remove (h : Trimmed p p') (htype : ~~~q &&& DbfsPermission.S_IFMT = DbfsPermission.S_IFMT)
    (hperm : ~~~q &&& 0o777 = (0o777 : UInt16)) : Trimmed p (p'.remove q) := by
  refine h.trans ⟨DbfsPermission.and_remove p' htype, DbfsPermission.and_remove p' hperm, ?_⟩
  intro hs
  simp only [DbfsPermission.contains, DbfsPermission.remove, beq_iff_eq] at hs ⊢
  rw [← hs, ← UInt16.and_assoc, ← UInt16.and_assoc, UInt16.and_self]

theorem remove_suid (h : Trimmed p p') : Trimmed p (p'.remove DbfsPermission.S_ISUID) :=
  h.remove (by decide) (by decide)

theorem remove_sgid (h : Trimmed p p') : Trimmed p (p'.remove DbfsPermission.S_ISGID) :=
  h.remove (by decide) (by decide)

theorem ite {c : Prop} [Decidable c] (h : Trimmed p p') (h' : Trimmed p q) :
    Trimmed p (if c then p' else q) := by
  split_ifs
  · exact h
  · exact h'

end Trimmed

theorem clear_suid_sgid_trimmed (p : DbfsPermission) : Trimmed p (clear_suid_sgid p) :=
  have hsuid := (Trimmed.refl p).remove_suid
  hsuid.remove_sgid.ite hsuid

theorem chown_mode_trimmed (p : DbfsPermission) (uid gid : Option UInt32) :
    Trimmed p (chown_mode p uid gid) := by
  unfold chown_mode
  have hclear := (clear_suid_sgid_trimmed p).ite (Trimmed.refl p)
    (c := (p.contains DbfsPermission.S_IXUSR || p.contains DbfsPermission.S_IXGRP ||
      p.contains DbfsPermission.S_IXOTH) = true)
  have huid := hclear.remove_suid.ite hclear (c := uid.isSome = true)
  exact huid.remove_sgid.ite huid

theorem chmod_mode_type (p mode : DbfsPermission) :
    chmod_mode p mode &&& DbfsPermission.S_IFMT = p &&& DbfsPermission.S_IFMT := by
  have hmode : (mode &&& 0o777) &&& DbfsPermission.S_IFMT = 0 := by
    rw [UInt16.and_assoc]
    exact UInt16.and_zero
  rw [chmod_mode, DbfsPermission.and_or _ hmode, UInt16.and_assoc]
  rfl

theorem chmod_mode_suid (p mode : DbfsPermission) :
    (chmod_mode p mode).contains DbfsPermission.S_ISUID = false := by
  have hmode : (mode &&& 0o777) &&& DbfsPermission.S_ISUID = 0 := by
    rw [UInt16.and_assoc]
    exact UInt16.and_zero
  have hperm : (p &&& 0o170000) &&& DbfsPermission.S_ISUID = 0 := by
    rw [UInt16.and_assoc]
    exact UInt16.and_zero
  rw [DbfsPermission.contains, chmod_mode, DbfsPermission.and_or _ hmode, hperm]
  rfl

/-! ## What a requester can do -/

/-- What has become of inode `n` by calls of a requester who is not root. -/
structure Owned (r_uid r_gid : UInt32) (n : UInt64) (db db' : Db) : Prop where
  type : (db'.u16 n .mode).map (· &&& DbfsPermission.S_IFMT) =
    (db.u16 n .mode).map (· &&& DbfsPermission.S_IFMT)
  uid : db'.u32 n .uid = db.u32 n .uid
  gid : db'.u32 n .gid = db.u32 n .gid ∨
    db.u32 n .uid = some r_uid ∧ db'.u32 n .gid = some r_gid
  perm : (db'.u16 n .mode).map (· &&& 0o777) = (db.u16 n .mode).map (· &&& 0o777) ∨
    db.u32 n .uid = some r_uid
  suid (m' : DbfsPermission) : db'.u16 n .mode = some m' →
    m'.contains DbfsPermission.S_ISUID = true →
    ∃ m, db.u16 n .mode = some m ∧ DbfsPermission.contains m DbfsPermission.S_ISUID = true

namespace Owned

variable {r_uid r_gid : UInt32} {n : UInt64} {db db₁ db' : Db}

/-- Nothing was written to the three fields. -/
theorem of_same (hmode : db'.get n Field.mode.key = db.get n Field.mode.key)
    (huid : db'.get n Field.uid.key = db.get n Field.uid.key)
    (hgid : db'.get n Field.gid.key = db.get n Field.gid.key) : Owned r_uid r_gid n db db' := by
  have hmode' : db'.u16 n .mode = db.u16 n .mode := by rw [Db.u16, Db.u16, hmode]
  have huid' : db'.u32 n .uid = db.u32 n .uid := by rw [Db.u32, Db.u32, huid]
  have hgid' : db'.u32 n .gid = db.u32 n .gid := by rw [Db.u32, Db.u32, hgid]
  exact ⟨by rw [hmode'], huid', .inl hgid', .inl (by rw [hmode']), fun m' hm' hs =>
    ⟨m', hmode' ▸ hm', hs⟩⟩

theorem refl (db : Db) : Owned r_uid r_gid n db db := of_same rfl rfl rfl

theorem trans (h : Owned r_uid r_gid n db db₁) (h' : Owned r_uid r_gid n db₁ db') :
    Owned r_uid r_gid n db db' where
  type := h'.type.trans h.type
  uid := h'.uid.trans h.uid
  gid := by
    rcases h'.gid with hg' | ⟨hu', hg'⟩
    · rw [hg']
      exact h.gid
    · exact .inr ⟨h.uid ▸ hu', hg'⟩
  perm := by
    rcases h'.perm with hp' | hu'
    · rw [hp']
      exact h.perm
    · exact .inr (h.uid ▸ hu')
  suid m' hm' hs' := by
    obtain ⟨m, hm, hs⟩ := h'.suid m' hm' hs'
    exact h.suid m hm hs

/-- The mode was trimmed, and the owner stayed. -/
theorem of_trimmed {p p' : DbfsPermission} (hp : db.u16 n .mode = some p)
    (hp' : db'.u16 n .mode = some p') (htrim : Trimmed p p')
    (huid : db'.u32 n .uid = db.u32 n .uid)
    (hgid : db'.u32 n .gid = db.u32 n .gid ∨
      db.u32 n .uid = some r_uid ∧ db'.u32 n .gid = some r_gid) : Owned r_uid r_gid n db db' where
  type := by rw [hp, hp', Option.map_some, Option.map_some, htrim.type]
  uid := huid
  gid := hgid
  perm := .inl (by rw [hp, hp', Option.map_some, Option.map_some, htrim.perm])
  suid m' hm' hs := by
    cases hp'.symm.trans hm'
    exact ⟨p, hp, htrim.suid hs⟩

end Owned

/-- Everything may be written but mode, owner and group. -/
def Unowned (k : Bytes) (_ : Option Bytes) : Prop :=
  k ≠ Field.mode.key ∧ k ≠ Field.uid.key ∧ k ≠ Field.gid.key

theorem unowned_of_wrote {B : Nat} {k : Bytes} {o : Option Bytes} (h : Wrote B k o) :
    Unowned k o := by
  refine ⟨fun e => ?_, fun e => ?_, fun e => ?_⟩
  · exact h.1 .mode e
  · exact h.1 .uid e
  · exact h.1 .gid e

theorem Changes.owned {P : UInt64 → Prop} {r_uid r_gid : UInt32} {n : UInt64} {db db' : Db}
    (h : Changes P Unowned db db') (hP : P n) (hn : db'.Has n) : Owned r_uid r_gid n db db' :=
  .of_same ((h.get n _ hP hn).resolve_right fun hw => hw.1 rfl)
    ((h.get n _ hP hn).resolve_right fun hw => hw.2.1 rfl)
    ((h.get n _ hP hn).resolve_right fun hw => hw.2.2 rfl)

/-! ## One call -/

section steps

variable [Features] {r_uid r_gid : UInt32} {s : Sys} {n : UInt64}

omit [Features] in
theorem fits_max (db : Db) : db.Fits (2 ^ 64 - 1) := by
  intro n x hx
  have := Db.lt_of_usize hx
  omega

theorem Call.fits_max (call : Call) (db : Db) : call.Fits (2 ^ 64 - 1) db := by
  have hgrow : ∀ dir, db.MayGrow (2 ^ 64 - 1) dir := fun dir size _ hlt => by omega
  cases call with
  | naming call => cases call <;> first | exact hgrow _ | trivial
  | write => exact fun h => by omega
  | truncate ino t f_size =>
    have := f_size.toNat_lt
    change f_size.toNat ≤ _
    omega
  | fallocate => exact fun _ h => by omega
  | _ => trivial

/-- The number of an inode that is there is refused. -/
theorem create_refused (hn : s.db.Has s.DBFS_INODE_NUMBER) (dir : UInt64) (name : String)
    (t : DbfsTimeSpec) (permission : DbfsPermission) (target_path : Option String)
    (dev : Option UInt32) :
    (dbfs_common_create dir name r_uid r_gid t permission target_path dev s).2.db = s.db := by
  rcases create_db dir permission target_path dev s with h | ⟨r, htx⟩
  · exact h
  · obtain ⟨_, _, _, _, _, _, _, _, hnew⟩ := create_tx_spec htx
    have hfresh := (new_inode_tx_spec hnew).1
    simp [create_entry] at hfresh
    exact absurd hn hfresh

theorem truncate_owned (t : DbfsTimeSpec) (f_size : UInt64)
    (hn' : (dbfs_common_truncate r_uid r_gid n t f_size s).2.db.Has n) :
    Owned r_uid r_gid n s.db (dbfs_common_truncate r_uid r_gid n t f_size s).2.db := by
  rcases truncate_state t f_size with h | ⟨attr, a, _, db', hattr, htx, h⟩
  · rw [h]
    exact .refl _
  · rw [h] at hn' ⊢
    obtain ⟨_, _, _, hperm, _⟩ := attr_tx_spec hattr
    obtain ⟨db₁, hch, rfl⟩ := truncate_changes (P := fun _ => True) (B := 2 ^ 64 - 1) htx
      (by have := f_size.toNat_lt; omega)
    have hn₁ := (Db.has_put ..).mp hn'
    have h₁ : Owned r_uid r_gid n s.db db₁ :=
      (hch.mono (fun _ => id) fun _ _ => unowned_of_wrote).owned trivial hn₁
    have hmode₁ : db₁.u16 n .mode = some attr.perm := by
      rw [Db.u16, (hch.get n Field.mode.key trivial hn₁).resolve_right fun hw =>
        (unowned_of_wrote hw).1 rfl]
      exact hperm
    refine h₁.trans (.of_trimmed hmode₁ ?_ (clear_suid_sgid_trimmed attr.perm) ?_ (.inl ?_))
    · simp [hn₁]
    · simp
    · simp

omit [Features] in
theorem chmod_owned (hroot : r_uid ≠ 0) (hn : s.db.Has n) (mode : UInt16) (t : DbfsTimeSpec) :
    Owned r_uid r_gid n s.db (dbfs_common_chmod r_uid r_gid n mode t s).2.db := by
  rcases chmod_state mode t with h | ⟨attr, _, hattr, howner, h⟩
  · rw [h]
    exact .refl _
  · rw [h]
    obtain ⟨_, huid, _, hperm, _⟩ := attr_tx_spec hattr
    obtain rfl := howner.resolve_left hroot
    have hmode : (chmodded s.db n (chmod_mode attr.perm mode) t).u16 n .mode =
        some (chmod_mode attr.perm mode) := by simp [chmodded, hn]
    refine ⟨?_, by simp [chmodded], .inl (by simp [chmodded]), .inr huid, fun m' hm' hs => ?_⟩
    · rw [hmode, hperm, Option.map_some, Option.map_some, chmod_mode_type]
    · cases hmode.symm.trans hm'
      rw [chmod_mode_suid] at hs
      cases hs

omit [Features] in
theorem chown_owned (hroot : r_uid ≠ 0) (hn : s.db.Has n) (uid gid : Option UInt32)
    (t : DbfsTimeSpec) :
    Owned r_uid r_gid n s.db (dbfs_common_chown r_uid r_gid n uid gid t s).2.db := by
  rcases chown_state uid gid t with h | ⟨attr, _, hattr, hlimits, h⟩
  · rw [h]
    exact .refl _
  · rw [h]
    obtain ⟨_, huid, hgid, hperm, _⟩ := attr_tx_spec hattr
    obtain ⟨hsame, hgroup⟩ := hlimits hroot
    have hold : uid.getD attr.uid = attr.uid := by
      rcases uid with _ | x
      · rfl
      · exact hsame x rfl
    refine .of_trimmed hperm ?_ (chown_mode_trimmed attr.perm uid gid) ?_ ?_
    · simp [chowned, hn]
    · simp [chowned, hn, hold, huid]
    · rcases gid with _ | x
      · exact .inl (by simp [chowned, hn, hgid])
      · obtain ⟨rfl, rfl⟩ := hgroup x rfl
        exact .inr ⟨huid, by simp [chowned, hn]⟩

/-- One call of a requester who is not root, on an inode that was there and stays. -/
theorem call_owned (hroot : r_uid ≠ 0) (call : Call) (hn : s.db.Has n)
    (hn' : (call.run r_uid r_gid s).2.db.Has n) :
    Owned r_uid r_gid n s.db (call.run r_uid r_gid s).2.db := by
  have hchanges := call_changes (fun _ _ => unowned_of_wrote) (.inr fun _ => ⟨by simp, by simp,
    by simp⟩) (fits_max s.db) call (call.fits_max s.db) r_uid r_gid
  by_cases hspares : call.Spares s n
  · exact hchanges.owned hspares hn'
  · -- the call is one of the four that write the mode or the owner of `n`
    cases call with
    | naming call =>
      cases call with
      | create dir name t permission target_path dev =>
        obtain rfl := not_not.mp hspares
        rw [Call.run, NameCall.run, Fs.discard_state, create_refused hn]
        exact .refl _
      | _ => exact absurd trivial hspares
    | truncate ino t f_size =>
      obtain rfl := not_not.mp hspares
      rw [Call.run, Fs.discard_state] at hn' ⊢
      exact truncate_owned t f_size hn'
    | chmod ino mode t =>
      obtain rfl := not_not.mp hspares
      rw [Call.run, Fs.discard_state]
      exact chmod_owned hroot hn mode t
    | chown ino uid gid t =>
      obtain rfl := not_not.mp hspares
      rw [Call.run, Fs.discard_state]
      exact chown_owned hroot hn uid gid t
    | _ => exact absurd trivial hspares

end steps

/-! ## Runs -/

section runs

variable [Features]

/-- The state after some calls of one requester. -/
def after_calls_of (r_uid r_gid : UInt32) (calls : List Call) (s : Sys) : Sys :=
  calls.foldl (fun s call => (call.run r_uid r_gid s).2) s

/-- Over every run of a requester who is not root, in every inode that is there all the time:
type and owner stay, the group changes only for the owner and to the requester's own, permission
bits change only for the owner, and the set-user-id bit is never switched on. -/
theorem ownership_kept (r_uid r_gid : UInt32) (hroot : r_uid ≠ 0) (s : Sys) (calls : List Call)
    (n : UInt64) (hlive : ∀ k, (after_calls_of r_uid r_gid (calls.take k) s).db.Has n) :
    Owned r_uid r_gid n s.db (after_calls_of r_uid r_gid calls s).db := by
  induction calls generalizing s with
  | nil => exact .refl _
  | cons call calls ih =>
    have hn : s.db.Has n := hlive 0
    have hn' : (call.run r_uid r_gid s).2.db.Has n := hlive 1
    exact (call_owned hroot call hn hn').trans (ih _ fun k => hlive (k + 1))

end runs

section sample

attribute [local instance] sli512_features

/-- User 7 tries to get at the file of user 5, and nothing comes of it. -/
def stranger_calls : List Call :=
  [.chmod 2 0o777 .default, .chown 2 (some 7) none .default, .chown 2 none (some 7) .default]

theorem stranger_changes_nothing :
    Owned 7 7 2 private_file.db (after_calls_of 7 7 stranger_calls private_file).db := by
  refine ownership_kept 7 7 (by decide) private_file stranger_calls 2 fun k => ?_
  have hall : ∀ k < 4, (after_calls_of 7 7 (stranger_calls.take k) private_file).db.Has 2 := by
    decide +kernel
  rcases Nat.lt_or_ge k 4 with hk | hk
  · exact hall k hk
  · rw [List.take_of_length_le (Nat.le_trans (by decide) hk)]
    exact hall 3 (by decide)

end sample

end dbfs2
