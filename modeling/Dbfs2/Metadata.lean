-- The fields of every inode decode, in every state of every run of the two front ends,
-- as long as no step writes a field in another form: the rename of the rvfs front end
-- writes sizes as text.
import Dbfs2.Ownership
import Dbfs2.Ops

namespace dbfs2

open common Tx inode attr file fs_type

/-! ## Inodes that can be read -/

/-- The width of the fields that every inode has. -/
def common.Field.width : Field → Option Nat
  | .mode => some 2
  | .size => some 8
  | .hard_links => some 4
  | .uid => some 4
  | .gid => some 4
  | .block_size => some 4
  | .atime => some 12
  | .mtime => some 12
  | .ctime => some 12
  | _ => none

/-- Every inode has its fields in their widths, and its attributes can be read. -/
def Decodes (s : Sys) : Prop := ∀ n, s.db.Has n →
  (∀ f w, Field.width f = some w → ∃ v, s.db.get n f.key = some v ∧ v.length = w) ∧
    ∃ attr, dbfs_common_attr n s = (.Ok attr, s)

theorem length_to_be_bytes (t : DbfsTimeSpec) : t.to_be_bytes.length = 12 := by
  simp [DbfsTimeSpec.to_be_bytes, be_usize, be_u32]

section readable

variable [Features]

/-- The largest size whose attributes can be read: one block more must be a `usize` still. -/
def MAX_SIZE : Nat := 2 ^ 64 - 1 - SLICE_SIZE

/-- The fields of an inode are in the layout. -/
structure Laid (db : Db) (n : UInt64) : Prop where
  mode : ∃ m : DbfsPermission, db.u16 n .mode = some m ∧ ∃ ty : DbfsFileType,
    m &&& DbfsPermission.S_IFMT = ty.bits
  size : ∃ x, db.usize n .size = some x
  hard_links : ∃ links, db.u32 n .hard_links = some links
  uid : ∃ uid, db.u32 n .uid = some uid
  gid : ∃ gid, db.u32 n .gid = some gid
  block_size : db.u32 n .block_size = some (UInt32.ofNat SLICE_SIZE)
  times (f : Field) : f = .atime ∨ f = .mtime ∨ f = .ctime →
    ∃ t : DbfsTimeSpec, db.get n f.key = some t.to_be_bytes

/-- What the attributes need beside the layout: room for one block more, and the number of a
device. -/
structure AttrFits (db : Db) (n : UInt64) : Prop where
  size (x : Nat) : db.usize n .size = some x → x ≤ MAX_SIZE
  dev (ty : DbfsFileType) : db.kind n = some ty → IsDevice ty → ∃ d, db.u32 n .dev = some d

variable {db db' : Db} {n : UInt64}

theorem slice_size_u32 : (UInt32.ofNat SLICE_SIZE).toNat = SLICE_SIZE := by
  have := SLICE_SIZE_le
  rw [UInt32.toNat_ofNat', Nat.mod_eq_of_lt (by omega)]

/-- The attributes of an inode in the layout. -/
theorem Laid.attr_iff (h : Laid db n) :
    (∃ attr, attr_tx n db = .Ok (attr, db)) ↔ AttrFits db n := by
  have hblk := slice_size_u32
  have hS := SLICE_SIZE_pos
  have hle := SLICE_SIZE_le
  constructor
  · rintro ⟨attr, hattr⟩
    have hs := (attr_tx_iff.mp hattr).1
    refine ⟨fun x hx => ?_, fun ty hty hdev => ⟨attr.rdev, ?_⟩⟩
    · obtain ⟨_, hlt, _⟩ := hs.blocks
      cases hx.symm.trans hs.size
      rw [← Option.some.inj (h.block_size.symm.trans hs.block_size), hblk] at hlt
      unfold MAX_SIZE
      omega
    · rw [Db.kind, hs.mode] at hty
      cases hty.symm.trans hs.kind
      exact (if_pos hdev).mp hs.rdev
  · intro hfits
    obtain ⟨m, hm, ty, hty⟩ := h.mode
    obtain ⟨x, hsize⟩ := h.size
    obtain ⟨links, hlinks⟩ := h.hard_links
    obtain ⟨uid, huid⟩ := h.uid
    obtain ⟨gid, hgid⟩ := h.gid
    obtain ⟨ta, ha⟩ := h.times .atime (.inl rfl)
    obtain ⟨tm, hmt⟩ := h.times .mtime (.inr (.inl rfl))
    obtain ⟨tc, hc⟩ := h.times .ctime (.inr (.inr rfl))
    have hkind := DbfsFileType.from_bits hty
    have hmax := hfits.size x hsize
    have hlt : x + (UInt32.ofNat SLICE_SIZE).toNat < 2 ^ 64 := by
      rw [hblk]
      unfold MAX_SIZE at hmax
      omega
    have hne : UInt32.ofNat SLICE_SIZE ≠ 0 := by
      intro e
      rw [e] at hblk
      change 0 = SLICE_SIZE at hblk
      omega
    have htime {f : Field} {t : DbfsTimeSpec} (ht : db.get n f.key = some t.to_be_bytes) :
        (db.get n f.key).bind dbfs_time_spec = some t := by
      rw [ht]
      exact dbfs_time_spec_be t
    obtain ⟨rdev, hrdev⟩ : ∃ rdev, if IsDevice ty then db.u32 n .dev = some rdev else rdev = 0 := by
      by_cases hdev : IsDevice ty
      · obtain ⟨d, hd⟩ := hfits.dev ty (by rw [Db.kind, hm]; exact hkind) hdev
        exact ⟨d, (if_pos hdev).mpr hd⟩
      · exact ⟨0, (if_neg hdev).mpr rfl⟩
    let blksize := UInt32.ofNat SLICE_SIZE
    exact ⟨⟨n, x, (x + blksize.toNat - 1) / blksize.toNat, ta, tm, tc, .default, ty, m, links, uid,
      gid, rdev, blksize, 0, 0⟩, attr_tx_iff.mpr ⟨⟨hsize, hm, hkind, hlinks, huid, hgid,
      h.block_size, ⟨hne, hlt, rfl⟩, htime ha, htime hmt, htime hc, hrdev, rfl, rfl, rfl, rfl⟩,
      rfl⟩⟩

omit [Features] in
/-- The decoders tell the width. -/
theorem width_of_decodes {f : Field} {w : Nat} {v : Bytes} (hv : db.get n f.key = some v)
    (h : (∃ x, w = 2 ∧ db.u16 n f = some x) ∨ (∃ x, w = 4 ∧ db.u32 n f = some x) ∨
      ∃ x, w = 8 ∧ db.usize n f = some x) : v.length = w := by
  simp only [Db.u16, Db.u32, Db.usize, hv, Option.bind_some] at h
  rcases h with ⟨x, rfl, h⟩ | ⟨x, rfl, h⟩ | ⟨x, rfl, h⟩
  · unfold common.u16 at h
    split_ifs at h with hl
    exact hl
  · unfold common.u32 at h
    split_ifs at h with hl
    exact hl
  · unfold common.usize at h
    split_ifs at h with hl
    exact hl

omit [Features] in
theorem get_of_u32 {f : Field} {x : UInt32} (h : db.u32 n f = some x) :
    ∃ v, db.get n f.key = some v ∧ v.length = 4 := by
  obtain ⟨v, hv, _⟩ := Option.bind_eq_some_iff.mp h
  exact ⟨v, hv, width_of_decodes hv (.inr (.inl ⟨x, rfl, h⟩))⟩

theorem Laid.width (h : Laid db n) (f : Field) (w : Nat) (hw : f.width = some w) :
    ∃ v, db.get n f.key = some v ∧ v.length = w := by
  have htime : ∀ g : Field, g = .atime ∨ g = .mtime ∨ g = .ctime →
      ∃ v, db.get n g.key = some v ∧ v.length = 12 := fun g hg => by
    obtain ⟨t, ht⟩ := h.times g hg
    exact ⟨_, ht, length_to_be_bytes t⟩
  cases f with
  | mode =>
    cases hw
    obtain ⟨m, hm, _⟩ := h.mode
    obtain ⟨v, hv, _⟩ := Option.bind_eq_some_iff.mp hm
    exact ⟨v, hv, width_of_decodes hv (.inl ⟨m, rfl, hm⟩)⟩
  | size =>
    cases hw
    obtain ⟨x, hx⟩ := h.size
    obtain ⟨v, hv, _⟩ := Option.bind_eq_some_iff.mp hx
    exact ⟨v, hv, width_of_decodes hv (.inr (.inr ⟨x, rfl, hx⟩))⟩
  | hard_links =>
    cases hw
    obtain ⟨_, hx⟩ := h.hard_links
    exact get_of_u32 hx
  | uid =>
    cases hw
    obtain ⟨_, hx⟩ := h.uid
    exact get_of_u32 hx
  | gid =>
    cases hw
    obtain ⟨_, hx⟩ := h.gid
    exact get_of_u32 hx
  | block_size =>
    cases hw
    exact get_of_u32 h.block_size
  | atime =>
    cases hw
    exact htime _ (.inl rfl)
  | mtime =>
    cases hw
    exact htime _ (.inr (.inl rfl))
  | ctime =>
    cases hw
    exact htime _ (.inr (.inr rfl))
  | _ => cases hw

/-! ## What changes keep -/

omit [Features] in
/-- A link count of four bytes is none of eight. -/
theorem links_not_usize {links : UInt32} (h : db.u32 n .hard_links = some links) :
    db.usize n .hard_links = none := by
  obtain ⟨v, hv, hlen⟩ := get_of_u32 h
  simp [Db.usize, hv, common.usize, hlen]

/-- Inode `n` keeps its type and its owners, and its other fields hold what they held or what
calls write. -/
structure Kept (B : Nat) (n : UInt64) (db db' : Db) : Prop where
  mode (m : DbfsPermission) : db.u16 n .mode = some m → ∃ m', db'.u16 n .mode = some m' ∧
    m' &&& DbfsPermission.S_IFMT = m &&& DbfsPermission.S_IFMT
  owner (f : Field) (x : UInt32) : f = .uid ∨ f = .gid → db.u32 n f = some x →
    ∃ y, db'.u32 n f = some y
  field (f : Field) : f ≠ .mode → f ≠ .uid → f ≠ .gid →
    db'.get n f.key = db.get n f.key ∨ f.Writes B (db'.get n f.key)

omit [Features] in
theorem Kept.refl (B : Nat) (n : UInt64) (db : Db) : Kept B n db db :=
  ⟨fun m hm => ⟨m, hm, rfl⟩, fun _ x _ hx => ⟨x, hx⟩, fun _ _ _ _ => .inl rfl⟩

omit [Features] in
theorem Changes.kept {P : UInt64 → Prop} {B : Nat} (h : Changes P (Wrote B) db db') (hP : P n)
    (hn : db'.Has n) : Kept B n db db' := by
  have hsame : ∀ f : Field, (∀ o, ¬ f.Writes B o) → db'.get n f.key = db.get n f.key := by
    intro f hf
    exact (h.get n f.key hP hn).resolve_right fun hw => hf _ (hw.1 f rfl)
  refine ⟨fun m hm => ⟨m, ?_, rfl⟩, fun f x hf hx => ⟨x, ?_⟩, fun f _ _ _ => ?_⟩
  · rw [Db.u16, hsame .mode fun _ => id]
    exact hm
  · rcases hf with rfl | rfl
    · rw [Db.u32, hsame .uid fun _ => id]
      exact hx
    · rw [Db.u32, hsame .gid fun _ => id]
      exact hx
  · exact (h.get n f.key hP hn).imp_right fun hw => hw.1 f rfl

theorem Laid.kept {B : Nat} (h : Laid db n) (hk : Kept B n db db') : Laid db' n := by
  refine ⟨?_, ?_, ?_, ?_, ?_, ?_, fun f hf => ?_⟩
  · obtain ⟨m, hm, ty, hty⟩ := h.mode
    obtain ⟨m', hm', he⟩ := hk.mode m hm
    exact ⟨m', hm', ty, he.trans hty⟩
  · rcases hk.field .size (by decide) (by decide) (by decide) with he | ⟨x, _, hx⟩
    · obtain ⟨x, hx⟩ := h.size
      exact ⟨x, by rw [Db.usize, he]; exact hx⟩
    · exact ⟨_, by rw [Db.usize, hx, Option.bind_some, common.usize,
        if_pos (by simp [be_usize])]⟩
  · rcases hk.field .hard_links (by decide) (by decide) (by decide) with he | ⟨links, hl⟩
    · obtain ⟨x, hx⟩ := h.hard_links
      exact ⟨x, by rw [Db.u32, he]; exact hx⟩
    · exact ⟨links, by rw [Db.u32, hl, Option.bind_some, u32_be]⟩
  · obtain ⟨uid, hu⟩ := h.uid
    exact hk.owner .uid uid (.inl rfl) hu
  · obtain ⟨gid, hg⟩ := h.gid
    exact hk.owner .gid gid (.inr rfl) hg
  · rw [Db.u32, (hk.field .block_size (by decide) (by decide) (by decide)).resolve_right id]
    exact h.block_size
  · obtain ⟨t, ht⟩ := h.times f hf
    rcases hf with rfl | rfl | rfl
    · exact (hk.field .atime (by decide) (by decide) (by decide)).elim
        (fun he => ⟨t, he.trans ht⟩) id
    · exact (hk.field .mtime (by decide) (by decide) (by decide)).elim
        (fun he => ⟨t, he.trans ht⟩) id
    · exact (hk.field .ctime (by decide) (by decide) (by decide)).elim
        (fun he => ⟨t, he.trans ht⟩) id

theorem AttrFits.kept (h : AttrFits db n) (hlaid : Laid db n) (hk : Kept MAX_SIZE n db db') :
    AttrFits db' n := by
  refine ⟨fun x hx => ?_, fun ty hty hdev => ?_⟩
  · rcases hk.field .size (by decide) (by decide) (by decide) with he | ⟨y, hy, hget⟩
    · rw [Db.usize, he] at hx
      exact h.size x hx
    · have hlt : y < 2 ^ 64 := by
        unfold MAX_SIZE at hy
        omega
      rw [Db.usize, hget, Option.bind_some, usize_be hlt] at hx
      cases hx
      exact hy
  · obtain ⟨m, hm, _⟩ := hlaid.mode
    obtain ⟨m', hm', he⟩ := hk.mode m hm
    rw [Db.kind, hm', Option.bind_some, DbfsFileType.from_and, he, ← DbfsFileType.from_and] at hty
    obtain ⟨d, hd⟩ := h.dev ty (by rw [Db.kind, hm]; exact hty) hdev
    exact ⟨d, by rw [Db.u32, (hk.field .dev (by decide) (by decide) (by decide)).resolve_right id]
                 exact hd⟩

/-! ## New inodes -/

omit [Features] in
theorem new_counts_size {permission : DbfsPermission} {target_path : Option String}
    {dev : Option UInt32} {counts : UInt32 × Nat × Option UInt32}
    (h : new_counts permission target_path dev = some counts) :
    counts.2.1 ≤ 2 ∨ ∃ target, target_path = some target ∧ counts.2.1 = target.utf8ByteSize := by
  unfold new_counts at h
  split_ifs at h
  · cases h
    exact .inl (by simp)
  · cases h
    exact .inl le_rfl
  · obtain ⟨target, htarget, rfl⟩ := Option.map_eq_some_iff.mp h
    exact .inr ⟨target, htarget, rfl⟩
  · cases h
    exact .inl (by simp)

omit [Features] in
theorem new_counts_dev {permission : DbfsPermission} {ty : DbfsFileType}
    (hty : permission &&& DbfsPermission.S_IFMT = ty.bits) (hdev : IsDevice ty)
    {target_path : Option String} {dev : Option UInt32} {counts : UInt32 × Nat × Option UInt32}
    (h : new_counts permission target_path dev = some counts) : counts.2.2 = dev := by
  have hbits : permission.contains DbfsPermission.S_IFCHR = true ∨
      permission.contains DbfsPermission.S_IFBLK = true := by
    rw [DbfsPermission.contains_type permission (q := DbfsPermission.S_IFCHR) (by decide),
      DbfsPermission.contains_type permission (q := DbfsPermission.S_IFBLK) (by decide), hty]
    rcases hdev with rfl | rfl <;> decide
  unfold new_counts at h
  rw [if_pos (by simp; tauto)] at h
  cases h
  rfl

section create

variable {dir : UInt64} {name : String} {uid gid : UInt32} {t : DbfsTimeSpec}
  {permission : DbfsPermission} {ty : DbfsFileType} {target_path : Option String}
  {dev : Option UInt32} {r : UInt32 × DbfsPermission × UInt32 × Nat × Option UInt32}

theorem create_laid (hty : permission &&& DbfsPermission.S_IFMT = ty.bits)
    (h : create_tx n dir name uid gid t permission target_path dev db = .Ok (r, db')) :
    Laid db' n := by
  obtain ⟨_, _, p_mode, _, counts, _, _, _, hnew⟩ := create_tx_spec h
  obtain ⟨_, _, _, _, hmode, hsize, hlinks, _⟩ := new_inode_tx_spec hnew
  obtain ⟨huid, hgid, hblock, ha, hm, hc, _⟩ := new_inode_tx_fields hnew
  refine ⟨⟨_, hmode, ty, by rw [new_mode_type, hty]⟩, ?_, ⟨_, hlinks⟩, ⟨_, huid⟩, ⟨_, hgid⟩, hblock,
    fun f hf => ?_⟩
  · rw [hsize, common.usize, if_pos (by simp [be_usize])]
    exact ⟨_, rfl⟩
  · rcases hf with rfl | rfl | rfl
    · exact ⟨t, ha⟩
    · exact ⟨t, hm⟩
    · exact ⟨t, hc⟩

theorem create_attrFits (hty : permission &&& DbfsPermission.S_IFMT = ty.bits)
    (hdev : IsDevice ty → dev.isSome = true)
    (htarget : ∀ target, target_path = some target → target.utf8ByteSize ≤ MAX_SIZE)
    (h : create_tx n dir name uid gid t permission target_path dev db = .Ok (r, db')) :
    AttrFits db' n := by
  obtain ⟨_, _, p_mode, _, counts, _, _, _, hnew⟩ := create_tx_spec h
  obtain ⟨_, hcounts, _, _, hmode, hsize, _, _⟩ := new_inode_tx_spec hnew
  obtain ⟨_, _, _, _, _, _, hnumber⟩ := new_inode_tx_fields hnew
  have hS := SLICE_SIZE_le
  refine ⟨fun x hx => ?_, fun ty' hty' hd => ?_⟩
  · have hle : counts.2.1 ≤ MAX_SIZE := by
      rcases new_counts_size hcounts with h2 | ⟨target, ht, he⟩
      · unfold MAX_SIZE
        omega
      · rw [he]
        exact htarget target ht
    rw [hsize, usize_be (by unfold MAX_SIZE at hle; omega)] at hx
    cases hx
    exact hle
  · rw [Db.kind, hmode] at hty'
    have hkind := DbfsFileType.from_bits (p := new_mode uid p_mode permission)
      (by rw [new_mode_type, hty])
    cases hkind.symm.trans hty'
    obtain ⟨d, hd'⟩ := Option.isSome_iff_exists.mp (hdev hd)
    exact ⟨d, hnumber d ((new_counts_dev hty hd hcounts).trans hd')⟩

end create

/-- The root inode that a mount makes. -/
theorem root_laid {uid gid : UInt32} {ctime : DbfsTimeSpec} :
    Laid ((db.create 1).puts 1 (root_fields uid gid ctime)) 1 ∧
      AttrFits ((db.create 1).puts 1 (root_fields uid gid ctime)) 1 := by
  have hS := SLICE_SIZE_le
  refine ⟨⟨⟨permission_from_mode .S_DIR, by simp [root_fields], .Directory, by decide⟩,
    ⟨1, by simp [root_fields, usize_be]⟩, ⟨2, by simp [root_fields]⟩, ⟨uid, by simp [root_fields]⟩,
    ⟨gid, by simp [root_fields]⟩, by simp [root_fields], fun f hf => ⟨ctime, ?_⟩⟩,
    fun x hx => ?_, fun ty hty hd => ?_⟩
  · rcases hf with rfl | rfl | rfl <;> simp [root_fields]
  · simp [root_fields, usize_be] at hx
    unfold MAX_SIZE
    omega
  · have hdir : ty = .Directory := by
      simp [Db.kind, root_fields] at hty
      exact (Option.some.inj ((by decide : DbfsFileType.from (permission_from_mode .S_DIR) =
        some .Directory).symm.trans hty)).symm
    rcases hd with rfl | rfl <;> cases hdir

end readable

/-! ## One step -/

section steps

variable [Features] {B : Nat} {s : Sys} {n : UInt64}

theorem truncate_kept {r_uid r_gid : UInt32} (t : DbfsTimeSpec) (f_size : UInt64)
    (hfit : f_size.toNat ≤ B) (hn' : (dbfs_common_truncate r_uid r_gid n t f_size s).2.db.Has n) :
    Kept B n s.db (dbfs_common_truncate r_uid r_gid n t f_size s).2.db := by
  rcases truncate_state t f_size with h | ⟨attr, a, _, db', hattr, htx, h⟩
  · rw [h]
    exact .refl ..
  · rw [h] at hn' ⊢
    obtain ⟨_, _, _, hperm, _⟩ := attr_tx_spec hattr
    obtain ⟨db₁, hch, rfl⟩ := truncate_changes (P := fun _ => True) htx hfit
    have hn₁ := (Db.has_put ..).mp hn'
    have h₁ := hch.kept (n := n) trivial hn₁
    refine ⟨fun m hm => ⟨clear_suid_sgid attr.perm, by simp [hn₁], ?_⟩, fun f x hf hx => ?_,
      fun f hm hu hg => ?_⟩
    · cases hperm.symm.trans hm
      exact (clear_suid_sgid_trimmed attr.perm).type
    · obtain ⟨y, hy⟩ := h₁.owner f x hf hx
      have hne : f ≠ .mode := by rcases hf with rfl | rfl <;> decide
      exact ⟨y, by simpa [hne] using hy⟩
    · simpa [hm] using h₁.field f hm hu hg

omit [Features] in
theorem chmod_kept {r_uid r_gid : UInt32} (hn : s.db.Has n) (mode : UInt16) (t : DbfsTimeSpec) :
    Kept B n s.db (dbfs_common_chmod r_uid r_gid n mode t s).2.db := by
  rcases chmod_state mode t with h | ⟨attr, _, hattr, _, h⟩
  · rw [h]
    exact .refl ..
  · rw [h]
    obtain ⟨_, _, _, hperm, _⟩ := attr_tx_spec hattr
    refine ⟨fun m hm => ⟨chmod_mode attr.perm mode, by simp [chmodded, hn], ?_⟩,
      fun f x hf hx => ⟨x, ?_⟩, fun f hm hu hg => ?_⟩
    · cases hperm.symm.trans hm
      exact chmod_mode_type attr.perm mode
    · rcases hf with rfl | rfl <;> simpa [chmodded] using hx
    · by_cases hc : f = .ctime
      · subst hc
        exact .inr ⟨t, by simp [chmodded, hn]⟩
      · exact .inl (by simp [chmodded, hm, hc])

omit [Features] in
theorem chown_kept {r_uid r_gid : UInt32} (hn : s.db.Has n) (uid gid : Option UInt32)
    (t : DbfsTimeSpec) : Kept B n s.db (dbfs_common_chown r_uid r_gid n uid gid t s).2.db := by
  rcases chown_state uid gid t with h | ⟨attr, _, hattr, _, h⟩
  · rw [h]
    exact .refl ..
  · rw [h]
    obtain ⟨_, _, _, hperm, _⟩ := attr_tx_spec hattr
    refine ⟨fun m hm => ⟨chown_mode attr.perm uid gid, by simp [chowned, hn], ?_⟩,
      fun f x hf hx => ?_, fun f hm hu hg => ?_⟩
    · cases hperm.symm.trans hm
      exact (chown_mode_trimmed attr.perm uid gid).type
    · rcases hf with rfl | rfl
      · exact ⟨uid.getD attr.uid, by simp [chowned, hn]⟩
      · exact ⟨gid.getD attr.gid, by simp [chowned, hn]⟩
    · by_cases hc : f = .ctime
      · subst hc
        exact .inr ⟨t, by simp [chowned, hn]⟩
      · exact .inl (by simp [chowned, hm, hu, hg, hc])

/-- A call keeps the layout of every inode that was there. -/
theorem call_kept (hlinks : ∀ n, s.db.usize n .hard_links = none) (hB : s.db.Fits B) (c : Call)
    (hfit : c.Fits B s.db) (r_uid r_gid : UInt32) (hn : s.db.Has n)
    (hn' : (c.run r_uid r_gid s).2.db.Has n) : Kept B n s.db (c.run r_uid r_gid s).2.db := by
  have hchanges := call_changes (fun _ _ => id) (.inl hlinks) hB c hfit r_uid r_gid
  by_cases hspares : c.Spares s n
  · exact hchanges.kept hspares hn'
  · -- the call is one of the four that write the mode or the owner of an inode
    cases c with
    | naming call =>
      cases call with
      | create dir name t permission target_path dev =>
        obtain rfl := not_not.mp hspares
        rw [Call.run, NameCall.run, Fs.discard_state, create_refused hn]
        exact .refl ..
      | _ => exact absurd trivial hspares
    | truncate ino t f_size =>
      obtain rfl := not_not.mp hspares
      rw [Call.run, Fs.discard_state] at hn' ⊢
      exact truncate_kept t f_size hfit hn'
    | chmod ino mode t =>
      obtain rfl := not_not.mp hspares
      rw [Call.run, Fs.discard_state]
      exact chmod_kept hn mode t
    | chown ino uid gid t =>
      obtain rfl := not_not.mp hspares
      rw [Call.run, Fs.discard_state]
      exact chown_kept hn uid gid t
    | _ => exact absurd trivial hspares

/-- Only create makes an inode. -/
theorem call_new (hlinks : ∀ n, s.db.usize n .hard_links = none) (c : Call) (r_uid r_gid : UInt32)
    (hn : ¬ s.db.Has n) (hn' : (c.run r_uid r_gid s).2.db.Has n) :
    ∃ dir name t permission target_path dev r,
      c = .naming (.create dir name t permission target_path dev) ∧
      create_tx n dir name r_uid r_gid t permission target_path dev s.db =
        .Ok (r, (c.run r_uid r_gid s).2.db) := by
  have hchanges := call_changes (fun _ _ => id) (.inl hlinks) (fits_max s.db) c (c.fits_max s.db)
    r_uid r_gid
  have hspares : ¬ c.Spares s n := fun h => hn (hchanges.has n h hn')
  have hattr : ∀ {attr db₁}, attr_tx n s.db ≠ .Ok (attr, db₁) := fun h =>
    hn (Db.has_of_u16 (attr_tx_spec h).2.2.2.1)
  cases c with
  | naming call =>
    cases call with
    | create dir name t permission target_path dev =>
      obtain rfl := not_not.mp hspares
      rw [Call.run, NameCall.run, Fs.discard_state] at hn' ⊢
      rcases create_db dir permission target_path dev s with h | ⟨r, htx⟩
      · exact absurd (h ▸ hn') hn
      · exact ⟨dir, name, t, permission, target_path, dev, r, rfl, htx⟩
    | _ => exact absurd trivial hspares
  | truncate ino t f_size =>
    obtain rfl := not_not.mp hspares
    rw [Call.run, Fs.discard_state] at hn'
    rcases (truncate_state t f_size :
      (dbfs_common_truncate r_uid r_gid n t f_size s).2 = s ∨ _) with
      h | ⟨_, _, _, _, h, _⟩
    · exact absurd (h ▸ hn') hn
    · exact absurd h hattr
  | chmod ino mode t =>
    obtain rfl := not_not.mp hspares
    rw [Call.run, Fs.discard_state] at hn'
    rcases (chmod_state mode t : (dbfs_common_chmod r_uid r_gid n mode t s).2 = s ∨ _) with
      h | ⟨_, _, h, _⟩
    · exact absurd (h ▸ hn') hn
    · exact absurd h hattr
  | chown ino uid gid t =>
    obtain rfl := not_not.mp hspares
    rw [Call.run, Fs.discard_state] at hn'
    rcases (chown_state uid gid t : (dbfs_common_chown r_uid r_gid n uid gid t s).2 = s ∨ _) with
      h | ⟨_, _, h, _⟩
    · exact absurd (h ▸ hn') hn
    · exact absurd h hattr
  | _ => exact absurd trivial hspares

theorem links_of_laid {db : Db} (h : ∀ n, db.Has n → Laid db n) (n : UInt64) :
    db.usize n .hard_links = none := by
  by_cases hn : db.Has n
  · obtain ⟨_, hl⟩ := (h n hn).hard_links
    exact links_not_usize hl
  · rw [Db.usize, Db.get_of_not_has hn]
    rfl

/-- A mode that create is given has one of the seven type codes. -/
def inode.NameCall.Typed : NameCall → Prop
  | create _ _ _ permission _ _ =>
    ∃ ty : DbfsFileType, permission &&& DbfsPermission.S_IFMT = ty.bits
  | _ => True

/-- Calls keep the layout, whatever sizes they write. -/
theorem call_laid (h : ∀ n, s.db.Has n → Laid s.db n) (c : Call)
    (htyped : ∀ call, c = .naming call → call.Typed) (r_uid r_gid : UInt32) :
    ∀ n, (c.run r_uid r_gid s).2.db.Has n → Laid (c.run r_uid r_gid s).2.db n := by
  intro n hn'
  by_cases hn : s.db.Has n
  · exact (h n hn).kept (call_kept (links_of_laid h) (fits_max s.db) c (c.fits_max s.db) r_uid r_gid
      hn hn')
  · obtain ⟨_, _, _, _, _, _, _, rfl, htx⟩ := call_new (links_of_laid h) c r_uid r_gid hn hn'
    obtain ⟨ty, hty⟩ := htyped _ rfl
    exact create_laid hty htx

end steps

/-! ## The condition -/

section sound

variable [Features] {s : Sys}

/-- Every inode is in the layout, and its attributes can be read. -/
def Readable (db : Db) : Prop := ∀ n, db.Has n → Laid db n ∧ AttrFits db n

theorem Readable.fits {db : Db} (h : Readable db) : db.Fits MAX_SIZE := fun n x hx =>
  (h n (Db.has_of_usize hx)).2.size x hx

/-- The call writes no size above the largest, gives a type code and gives every device its
number. -/
def Call.Sound (db : Db) : Call → Prop
  | naming (.create dir _ _ permission target_path dev) => db.MayGrow MAX_SIZE dir ∧
      ∃ ty : DbfsFileType, permission &&& DbfsPermission.S_IFMT = ty.bits ∧
        (IsDevice ty → dev.isSome = true) ∧
        ∀ target, target_path = some target → target.utf8ByteSize ≤ MAX_SIZE
  | c => c.Fits MAX_SIZE db

theorem Call.Sound.fits {c : Call} {db : Db} (h : c.Sound db) : c.Fits MAX_SIZE db := by
  cases c with
  | naming call =>
    cases call with
    | create => exact h.1
    | _ => exact h
  | _ => exact h

/-- The same for the operations: a copy stays below the largest size, and the rename of the rvfs
front end stays in one directory or finds nothing to rename. -/
def Op.Sound (db : Db) : Op → Prop
  | call _ _ c => c.Sound db
  | copy_file_range src offset_src _ offset_dest len _ _ =>
    ∀ size, db.usize src .size = some size → offset_dest + min (size - offset_src) len ≤ MAX_SIZE
  | dbfs_rename old_dir old_name new_dir _ => new_dir.number = old_dir.number ∨
      db.get old_dir.number (generate_data_key old_name) = none
  | op => ∀ c, op.hooked = some c → c.Sound db

theorem call_readable (h : Readable s.db) (c : Call) (hc : c.Sound s.db) (r_uid r_gid : UInt32) :
    Readable (c.run r_uid r_gid s).2.db := by
  intro n hn'
  have hlinks := links_of_laid fun n hn => (h n hn).1
  by_cases hn : s.db.Has n
  · have hk := call_kept hlinks h.fits c hc.fits r_uid r_gid hn hn'
    exact ⟨(h n hn).1.kept hk, (h n hn).2.kept (h n hn).1 hk⟩
  · obtain ⟨_, _, _, _, _, _, _, rfl, htx⟩ := call_new hlinks c r_uid r_gid hn hn'
    obtain ⟨_, ty, hty, hdev, htarget⟩ := hc
    exact ⟨create_laid hty htx, create_attrFits hty hdev htarget htx⟩

/-- A change of what calls write in every bucket. -/
theorem Readable.changes {db db' : Db} (h : Readable db)
    (hch : Changes (fun _ => True) (Wrote MAX_SIZE) db db') : Readable db' := by
  intro n hn'
  have hk := hch.kept (n := n) trivial hn'
  obtain ⟨h1, h2⟩ := h n (hch.has n trivial hn')
  exact ⟨h1.kept hk, h2.kept h1 hk⟩

theorem root_inode_readable (h : Readable s.db) (uid gid : UInt32) (ctime : DbfsTimeSpec) :
    Readable (dbfs_common_root_inode uid gid ctime s).2.db := by
  by_cases hroot : s.db.Has 1
  · have hsame : (dbfs_common_root_inode uid gid ctime s).2.db = s.db := by
      rw [dbfs_common_root_inode, if_pos hroot]
      rcases Fs.write_state (read_usize 1 .size) s with he | ⟨_, db', htx, he⟩
      · rw [he]
      · simp at htx
        rw [he, htx.2]
    rw [hsame]
    exact h
  · intro n hn'
    by_cases hn : n = 1
    · subst hn
      rw [root_inode_fresh _ _ _ hroot] at hn' ⊢
      split_ifs at hn' ⊢
      · rw [Fs.write, new_root_tx_eq _ _ _ hroot]
        exact root_laid
      · exact absurd hn' hroot
    · have hch : Changes (· ≠ 1) (Wrote MAX_SIZE) s.db
          (dbfs_common_root_inode uid gid ctime s).2.db := root_inode_changes
      have hk := hch.kept hn hn'
      obtain ⟨h1, h2⟩ := h n (hch.has n hn hn')
      exact ⟨h1.kept hk, h2.kept h1 hk⟩

/-- One operation within the condition. -/
theorem op_readable (h : Readable s.db) (op : Op) (hop : op.Sound s.db) :
    Readable (op.after s).db := by
  cases op with
  | call r_uid r_gid c => exact call_readable h c hop r_uid r_gid
  | copy_file_range => exact h.changes (copy_file_range_changes h.fits hop)
  | root_inode uid gid ctime => exact root_inode_readable h uid gid ctime
  | umount => exact h.changes umount_changes
  | sync_fs => exact h.changes sync_fs_changes
  | dbfs_setattr => exact h.changes (setattr_changes _ _ _)
  | dbfs_removeattr => exact h.changes (removeattr_changes _ _)
  | dbfs_rename old_dir old_name new_dir new_name =>
    rcases hop with hsame | hnone
    · exact h.changes (dbfs_rename_changes (fun _ _ => .inl hsame) _ _)
    · rw [Op.after, dbfs_rename_none hnone]
      exact h
  | _ =>
    rw [Op.after_hooked rfl]
    exact call_readable h _ (hop _ rfl) 0 0

end sound

/-! ## Every run -/

section runs

variable [Features]

/-- An operation within the condition. Between two of them the statics may change, as when another
process takes the database over. -/
inductive OpStep (s : Sys) : Sys → Prop
  | op (op : Op) : op.Sound s.db → OpStep s (op.after s)
  | statics (number : UInt64) (table : OrdMap UInt64 ReadDirInfo) : OpStep s ⟨s.db, number, table⟩

theorem Readable.decodes {s : Sys} (h : Readable s.db) : Decodes s := by
  intro n hn
  obtain ⟨h1, h2⟩ := h n hn
  obtain ⟨attr, hattr⟩ := h1.attr_iff.mpr h2
  exact ⟨h1.width, attr, Fs.read_ok.mpr ⟨⟨s.db, hattr⟩, rfl⟩⟩

/-- From a database without inodes on, the metadata decodes in every state that is reached by steps
within the condition. -/
theorem metadata_decodes_while_sound {s₀ s : Sys} (hempty : ∀ n, ¬ s₀.db.Has n)
    (hrun : Relation.ReflTransGen OpStep s₀ s) : Decodes s := by
  have hread : Readable s.db := by
    induction hrun with
    | refl => exact fun n hn => absurd hn (hempty n)
    | tail _ hstep ih =>
      cases hstep with
      | op op hop => exact op_readable ih op hop
      | statics number table => exact ih
  exact hread.decodes

end runs

/-! ## Sizes as text -/

section sample

attribute [local instance] sli512_features

def after_ops (ops : List Op) : Sys := ops.foldl (fun s op => op.after s) (start ⟨some ∅, ∅⟩)

/-- Two directories under the root, and a file in the first. -/
def two_directories : List Op :=
  [.root_inode 0 0 .default, .dbfs_mkdir .always ⟨1, 1, 2⟩ "a", .dbfs_mkdir .always ⟨1, 2, 2⟩ "b",
    .dbfs_create .always ⟨2, 2, 2⟩ "f"]

/-- The file is renamed into the second directory. -/
def renamed_file : List Op :=
  two_directories ++ [.dbfs_rename ⟨2, 3, 2⟩ "f" ⟨3, 2, 2⟩ "g"]

/-- The rename succeeds, and the attributes of the first directory cannot be read any more. -/
theorem attr_panics_after_rename :
    (dbfs_common_attr 2 (after_ops two_directories)).1 ≠ .Panic ∧
      (inode.dbfs_rename ⟨2, 3, 2⟩ "f" ⟨3, 2, 2⟩ "g" (after_ops two_directories)).1 =
        .Ok (.ok (⟨2, 2, 2⟩, ⟨3, 3, 2⟩)) ∧
      (dbfs_common_attr 2 (after_ops renamed_file)).1 = .Panic ∧
      ¬ Decodes (after_ops renamed_file) := by
  have hpanic : (dbfs_common_attr 2 (after_ops renamed_file)).1 = .Panic := by decide +kernel
  refine ⟨by decide +kernel, by decide +kernel, hpanic, fun h => ?_⟩
  obtain ⟨_, attr, hattr⟩ := h 2 (by decide +kernel)
  rw [hattr] at hpanic
  cases hpanic

/-- A directory under the root. -/
theorem new_directory_decodes : Decodes
    (after_ops [.root_inode 0 0 .default, .dbfs_mkdir .always ⟨1, 1, 2⟩ "a"]) := by
  refine @metadata_decodes_while_sound _ (start ⟨some ∅, ∅⟩) _ (not_has_empty ∅) ?_
  have hroot : OpStep (start ⟨some ∅, ∅⟩) (after_ops [.root_inode 0 0 .default]) :=
    .op (.root_inode 0 0 .default) fun c hc => by cases hc
  refine (Relation.ReflTransGen.single hroot).tail
    (.op (.dbfs_mkdir .always ⟨1, 1, 2⟩ "a") fun c hc => ?_)
  cases hc
  refine ⟨fun size hsize _ => ?_, .Directory, by decide, fun hd => ?_, fun _ ht => by cases ht⟩
  · have h1 : (after_ops [.root_inode 0 0 .default]).db.usize 1 .size = some 1 := by
      decide +kernel
    cases h1.symm.trans hsize
    decide
  · rcases hd with hd | hd <;> cases hd

end sample

end dbfs2
