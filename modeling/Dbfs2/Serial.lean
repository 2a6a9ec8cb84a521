-- Truncate beside writes. Truncate reads the attributes in one transaction and
-- changes the file in a second one, by the size of the first. Writes of other threads
-- may come in between; the end is that of a serial order as long as they do not move
-- the size into another slice, or truncate moves it further still.
import Dbfs2.Lockstep
import Dbfs2.RoundTrip

namespace dbfs2

open common Tx inode file

section serial

variable [Features] {n : UInt64} {db db₁ db₂ db' : Db} {s s₁ s₂ : Sys}

/-! ## Rows of writes -/

/-- The state after a row of writes, whatever their ends. -/
def after_writes (n : UInt64) (calls : List WriteCall) (s : Sys) : Sys :=
  calls.foldl (fun s call => (dbfs_common_write n call.buf call.offset call.scratch s).2) s

/-- A file with a size, in whole slices. -/
structure Regular (db : Db) (n : UInt64) : Prop where
  sliced : db.Sliced n
  size : ∃ size, db.usize n .size = some size

/-- Two states of one file with the same slices, and sizes that are related. -/
structure Beside (n : UInt64) (ρ : Nat → Nat → Prop) (db₁ db₂ : Db) : Prop where
  sliced : db₁.Sliced n
  same (i : Nat) : db₂.get n (slice_key i) = db₁.get n (slice_key i)
  sizes : ∃ z y, db₁.usize n .size = some z ∧ db₂.usize n .size = some y ∧ ρ z y

theorem Regular.beside (h : Regular db n) : Beside n Eq db db := by
  obtain ⟨size, hsize⟩ := h.size
  exact ⟨h.sliced, fun _ => rfl, size, size, hsize, hsize, rfl⟩

theorem Beside.sliced₂ {ρ : Nat → Nat → Prop} (h : Beside n ρ db₁ db₂) : db₂.Sliced n := by
  intro i v hv
  rw [h.same] at hv
  exact h.sliced i v hv

/-- The loop of a write looks at the slices only. -/
theorem write_loop_same (scratch : Scratch) (fuel num offset count : Nat) (rest : Bytes) :
    Tx.Lockstep (fun a b : Db => a.Has n ∧ b.Has n ∧
        ∀ i, b.get n (slice_key i) = a.get n (slice_key i))
      (write_loop n scratch fuel num offset count rest)
      (write_loop n scratch fuel num offset count rest) := by
  induction fuel generalizing num offset count rest with
  | zero => exact .unwrap none
  | succ fuel ih =>
    refine .bind ?_ fun kv => .bind (.unwrap _) fun data => .bind ?_ fun _ =>
      .ite (.pure _) (ih _ _ _ _)
    · intro a b h
      refine .inl ⟨a.get n (slice_key num), a, b, get_kv_ok.mpr ⟨h.1, rfl, rfl⟩,
        get_kv_ok.mpr ⟨h.2.1, (h.2.2 num).symm, rfl⟩, h⟩
    · intro a b h
      refine .inl ⟨(), _, _, put_ok.mpr ⟨h.1, rfl⟩, put_ok.mpr ⟨h.2.1, rfl⟩, ?_, ?_, fun i => ?_⟩
      · exact (Db.has_put _ _ _ _ _).mpr h.1
      · exact (Db.has_put _ _ _ _ _).mpr h.2.1
      · simp only [Db.get_put, h.1, h.2.1, h.2.2 i]

/-- A write goes through whatever the file holds, unless its end is out of range. -/
theorem write_step {buf : Bytes} {offset z : Nat} (scratch : Scratch) (hsliced : db.Sliced n)
    (hsize : db.usize n .size = some z) (hlt : offset + buf.length < 2 ^ 64) :
    ∃ db₁ db', write_loop n scratch (buf.length + 1) (offset / SLICE_SIZE) (offset % SLICE_SIZE) 0
        buf db = .Ok (buf.length, db₁) ∧ write_tx n buf offset scratch db = .Ok (buf.length, db') ∧
      (∀ i, db'.get n (slice_key i) = db₁.get n (slice_key i)) ∧ db₁.Sliced n := by
  have hn := Db.has_of_usize hsize
  obtain ⟨db₁, hloop, honly, hsliced₁⟩ := write_loop_work (n := n) (offset / SLICE_SIZE)
    0 scratch (Nat.lt_succ_self buf.length) (Nat.mod_lt offset SLICE_SIZE_pos) db hn
    hsliced
  rw [Nat.zero_add] at hloop
  have hn₁ := (honly.has n).mpr hn
  rw [write_tx, bind_of_ok (get_bucket_ok (u := ()).mpr ⟨hn, rfl⟩),
    bind_of_ok (read_usize_ok.mpr ⟨hsize, rfl⟩), bind_of_ok hloop,
    bind_of_ok (add_usize_ok.mpr ⟨hlt, rfl, rfl⟩)]
  by_cases hgrow : z < max z (offset + buf.length)
  · refine ⟨db₁, db₁.put n Field.size.key (be_usize (max z (offset + buf.length))), hloop, ?_,
      fun i => ?_, hsliced₁⟩
    · simp only [if_pos hgrow]
      rw [bind_of_ok (put_ok (u := ()).mpr ⟨hn₁, rfl⟩)]
      rfl
    · simp [Ne.symm (field_ne_slice_key _ _)]
  · refine ⟨db₁, db₁, hloop, ?_, fun i => rfl, hsliced₁⟩
    simp only [if_neg hgrow]
    rfl

/-- A write on two states of a file: the slices stay the same, and both sizes grow to its end. -/
theorem Beside.write {ρ : Nat → Nat → Prop} (hρ : ∀ z y e, ρ z y → ρ (max z e) (max y e))
    (h : Beside n ρ s₁.db s₂.db) (call : WriteCall) :
    Beside n ρ (dbfs_common_write n call.buf call.offset call.scratch s₁).2.db
      (dbfs_common_write n call.buf call.offset call.scratch s₂).2.db := by
  obtain ⟨z, y, hz, hy, hzy⟩ := h.sizes
  by_cases hlt : call.offset + call.buf.length < 2 ^ 64
  · obtain ⟨a, a', hloop₁, htx₁, hsame₁, hsliced⟩ := write_step call.scratch h.sliced hz hlt
    obtain ⟨b, b', hloop₂, htx₂, hsame₂, _⟩ := write_step call.scratch h.sliced₂ hy hlt
    have hsame : ∀ i, b.get n (slice_key i) = a.get n (slice_key i) := by
      rcases write_loop_same call.scratch _ _ _ _ _ s₁.db s₂.db
        ⟨Db.has_of_usize hz, Db.has_of_usize hy, h.same⟩ with
        ⟨_, _, _, h₁, h₂, hab⟩ | ⟨_, h₁, _⟩ | ⟨h₁, _⟩
      · cases hloop₁.symm.trans h₁
        cases hloop₂.symm.trans h₂
        exact hab.2.2
      · cases hloop₁.symm.trans h₁
      · cases hloop₁.symm.trans h₁
    obtain ⟨_, _, _, z', hz', hnew₁⟩ := write_tx_only htx₁
    obtain ⟨_, _, _, y', hy', hnew₂⟩ := write_tx_only htx₂
    cases hz.symm.trans hz'
    cases hy.symm.trans hy'
    have hrun₁ : dbfs_common_write n call.buf call.offset call.scratch s₁ = (.Ok _, _) :=
      Fs.write_ok.mpr ⟨a', htx₁, rfl⟩
    have hrun₂ : dbfs_common_write n call.buf call.offset call.scratch s₂ = (.Ok _, _) :=
      Fs.write_ok.mpr ⟨b', htx₂, rfl⟩
    rw [hrun₁, hrun₂]
    refine ⟨fun i v hv => ?_, fun i => ?_, _, _, hnew₁, hnew₂, hρ z y _ hzy⟩
    · rw [hsame₁] at hv
      exact hsliced i v hv
    · rw [hsame₁, hsame₂, hsame]
  · have hstay : ∀ s, (dbfs_common_write n call.buf call.offset call.scratch s).2 = s := by
      intro s
      rcases Fs.write_state (write_tx n call.buf call.offset call.scratch) s with h | ⟨_, _, h, _⟩
      · exact h
      · exact absurd (write_tx_only h).2.2.1 hlt
    rw [hstay, hstay]
    exact h

theorem Beside.writes {ρ : Nat → Nat → Prop} (hρ : ∀ z y e, ρ z y → ρ (max z e) (max y e))
    (h : Beside n ρ s₁.db s₂.db) (calls : List WriteCall) :
    Beside n ρ (after_writes n calls s₁).db (after_writes n calls s₂).db := by
  induction calls generalizing s₁ s₂ with
  | nil => exact h
  | cons call calls ih => exact ih (h.write hρ call)

/-! ## The second step of truncate -/

/-- There is room for a file of `size` bytes to be set to `m` bytes. -/
def Room (disk_size : Option Nat) (m size : Nat) : Prop := ∃ d, disk_size = some d ∧
  if size / SLICE_SIZE < m / SLICE_SIZE then m - size ≤ d
  else d + (size / SLICE_SIZE - m / SLICE_SIZE) * SLICE_SIZE < 2 ^ 64

/-- The slice that a cut at `m` leaves in part is a full one, if the cut does not delete it: two
numbers that are 2^32 apart have one key. -/
def Db.Cuttable (db : Db) (n : UInt64) (m size : Nat) : Prop :=
  size / SLICE_SIZE < m / SLICE_SIZE ∨ ∀ v, db.get n (slice_key (m / SLICE_SIZE)) = some v →
    SLICE_SIZE ≤ v.length ∨
      ∃ i ∈ List.range' (m / SLICE_SIZE + 1) (size / SLICE_SIZE - m / SLICE_SIZE),
        slice_key i = slice_key (m / SLICE_SIZE)

theorem Db.Sliced.cuttable (h : db.Sliced n) (m size : Nat) : db.Cuttable n m size :=
  .inr fun v hv => .inl (h _ v hv).ge

theorem clear_slice_run (num offset : Nat) (hn : db.Has n)
    (hlen : ∀ v, db.get n (slice_key num) = some v → SLICE_SIZE ≤ v.length) :
    ∃ db', clear_slice n num offset db = .Ok ((), db') := by
  rw [clear_slice, bind_of_ok (get_kv_ok.mpr ⟨hn, rfl, rfl⟩)]
  rcases hv : db.get n (slice_key num) with _ | v
  · exact ⟨db, rfl⟩
  · simp only
    rw [bind_of_ok (assert_ok (u := ()).mpr ⟨by simpa using hlen v hv, rfl⟩)]
    exact ⟨_, put_ok.mpr ⟨hn, rfl⟩⟩

theorem truncate_blocks_run {m size : Nat} (hn : db.Has n) (hcut : db.Cuttable n m size)
    (hroom : Room db.disk_size m size) : ∃ db', truncate_blocks n m size db = .Ok ((), db') := by
  obtain ⟨d, hd, hroom⟩ := hroom
  unfold truncate_blocks
  split_ifs at hroom with hgrow
  · exact ⟨_, ite_ok.mpr (.inl ⟨hgrow, charge_ok.mpr ⟨d, hd, hroom, rfl⟩⟩)⟩
  · obtain ⟨db₁, hdelete, hget⟩ := delete_slices_run hn
      (List.range' (m / SLICE_SIZE + 1) (size / SLICE_SIZE - m / SLICE_SIZE))
    have honly₁ := delete_slices_only hdelete
    obtain ⟨db₂, hclear⟩ := clear_slice_run (m / SLICE_SIZE) (m % SLICE_SIZE)
      ((honly₁.has n).mpr hn) fun v hv => by
        rw [hget] at hv
        split_ifs at hv with hgone
        exact (hcut.resolve_left hgrow v hv).resolve_right hgone
    have hsb : db₂.super_blk = db.super_blk :=
      (clear_slice_only hclear).super_blk.trans honly₁.super_blk
    have hsome : db₂.super_blk.isSome := hsb ▸ Db.has_super_blk hd
    have hd₂ : (db₂.sb .disk_size).bind common.usize = some d := by
      rw [Db.sb, hsb]
      exact hd
    refine ⟨db₂.sb_put .disk_size
      (be_usize (d + (size / SLICE_SIZE - m / SLICE_SIZE) * SLICE_SIZE)), ?_⟩
    simp only [if_neg hgrow]
    rw [bind_of_ok hdelete, bind_of_ok hclear,
      bind_of_ok (ok_unwrap_ok.mpr (get_super_blk_ok (u := ()).mpr ⟨hsome, rfl⟩)),
      bind_of_ok (sb_usize_ok.mpr ⟨hd₂, rfl⟩), bind_of_ok (add_usize_ok.mpr ⟨hroom, rfl, rfl⟩)]
    exact sb_put_ok.mpr ⟨hsome, rfl⟩

theorem room_of_blocks {m size : Nat} (h : truncate_blocks n m size db = .Ok ((), db')) :
    Room db.disk_size m size := by
  obtain ⟨_, d, d', _, hd, hlt, _, hspace⟩ := truncate_blocks_ok h
  refine ⟨d, hd, ?_⟩
  split_ifs at hspace ⊢ with hgrow
  · omega
  · omega

section step

variable {ctime : DbfsTimeSpec} {f_size : UInt64} {attr a : DbfsAttr}

/-- The second step of truncate sets the size; the slices are those that `truncate_blocks`
leaves. -/
theorem truncate_tx_blocks (h : truncate_tx n ctime f_size attr db = .Ok (a, db')) :
    ∃ db₁, truncate_blocks n f_size.toNat attr.size db = .Ok ((), db₁) ∧
      ∀ i, db'.get n (slice_key i) = db₁.get n (slice_key i) := by
  simp [truncate_tx] at h
  obtain ⟨_, _, db₁, hblocks, _, ⟨_, rfl⟩, _⟩ := h
  refine ⟨db₁, hblocks, fun i => ?_⟩
  simp [Ne.symm (field_ne_slice_key _ _)]

/-- It goes through when there is room. -/
theorem truncate_tx_run (ctime : DbfsTimeSpec) (hn : db.Has n)
    (hcut : db.Cuttable n f_size.toNat attr.size)
    (hroom : Room db.disk_size f_size.toNat attr.size) :
    ∃ a db', truncate_tx n ctime f_size attr db = .Ok (a, db') := by
  obtain ⟨db₁, hblocks⟩ := truncate_blocks_run hn hcut hroom
  obtain ⟨db₂, _, _, honly, _, _, rfl, _⟩ := truncate_blocks_ok hblocks
  have hn₂ : db₂.Has n := (honly.has n).mpr hn
  simp [truncate_tx, hn, hblocks, hn₂]

theorem truncate_tx_sliced (hn : db.Has n) (hsliced : db.Sliced n)
    (h : truncate_tx n ctime f_size attr db = .Ok (a, db')) : db'.Sliced n := by
  rcases truncate_lockstep ctime f_size attr db db ⟨.refl n db, hn, hsliced, hsliced⟩ with
    ⟨_, _, _, h₁, _, htwin⟩ | ⟨_, h₁, _⟩ | ⟨h₁, _⟩
  · cases h.symm.trans h₁
    exact htwin.sliced₁
  · cases h.symm.trans h₁
  · cases h.symm.trans h₁

end step

omit [Features] in
/-- Slices that are not there can be deleted or not. -/
theorem delete_slices_absent {is : List Nat} (hn : db.Has n)
    (h : ∀ i ∈ is, db.get n (slice_key i) = none) : delete_slices n is db = .Ok ((), db) := by
  induction is with
  | nil => rfl
  | cons i is ih =>
    rw [delete_slices, bind_of_ok (get_kv_ok.mpr ⟨hn, rfl, rfl⟩), h i List.mem_cons_self]
    exact ih fun j hj => h j (List.mem_cons_of_mem _ hj)

omit [Features] in
theorem delete_slices_append {is js : List Nat} {u : Unit}
    (h : delete_slices n (is ++ js) db = .Ok (u, db')) :
    ∃ db₁, delete_slices n is db = .Ok ((), db₁) ∧ delete_slices n js db₁ = .Ok (u, db') := by
  induction is generalizing db with
  | nil => exact ⟨db, rfl, h⟩
  | cons i is ih =>
    simp [delete_slices] at h ⊢
    obtain ⟨hn, ⟨hsome, h⟩ | ⟨hnone, h⟩⟩ := h
    · obtain ⟨db₁, h₁, h₂⟩ := ih h
      exact ⟨db₁, ⟨hn, .inl ⟨hsome, h₁⟩⟩, h₂⟩
    · obtain ⟨db₁, h₁, h₂⟩ := ih h
      exact ⟨db₁, ⟨hn, .inr ⟨hnone, h₁⟩⟩, h₂⟩

omit [Features] in
/-- What a file keeps of its slices, from before a row of deletions. -/
theorem stored_of_delete_slices {is : List Nat} {u : Unit} (hn : db.Has n)
    (h : delete_slices n is db = .Ok (u, db')) {k v : Bytes} (hv : db'.get n k = some v) :
    db.get n k = some v ∧ ∀ i ∈ is, k ≠ slice_key i := by
  obtain ⟨_, hrun, hget⟩ := delete_slices_run hn is
  cases h.symm.trans hrun
  rw [hget] at hv
  split_ifs at hv with hgone
  exact ⟨hv, fun i hi e => hgone ⟨i, hi, e.symm⟩⟩

/-- Two sizes cut a file in the same way when no slice is stored between them. -/
theorem truncate_blocks_same {m z₁ z₂ : Nat} (hn : db.Has n) (hm : m / SLICE_SIZE ≤ z₁ / SLICE_SIZE)
    (hz : z₁ / SLICE_SIZE ≤ z₂ / SLICE_SIZE)
    (habsent : ∀ i, z₁ / SLICE_SIZE < i → i ≤ z₂ / SLICE_SIZE → db.get n (slice_key i) = none)
    (h₁ : truncate_blocks n m z₁ db = .Ok ((), db₁))
    (h₂ : truncate_blocks n m z₂ db = .Ok ((), db₂))
    (i : Nat) : db₂.get n (slice_key i) = db₁.get n (slice_key i) := by
  have hsplit : List.range' (m / SLICE_SIZE + 1) (z₂ / SLICE_SIZE - m / SLICE_SIZE) =
      List.range' (m / SLICE_SIZE + 1) (z₁ / SLICE_SIZE - m / SLICE_SIZE) ++
        List.range' (z₁ / SLICE_SIZE + 1) (z₂ / SLICE_SIZE - z₁ / SLICE_SIZE) := by
    have hstart : z₁ / SLICE_SIZE + 1 =
        m / SLICE_SIZE + 1 + 1 * (z₁ / SLICE_SIZE - m / SLICE_SIZE) := by omega
    rw [hstart, List.range'_append]
    congr 1
    omega
  simp only [truncate_blocks, ite_ok, not_lt.mpr hm, not_lt.mpr (le_trans hm hz), false_and,
    false_or, not_false_eq_true, true_and, bind_ok, hsplit] at h₁ h₂
  obtain ⟨_, a₁, hdelete₁, _, b₁, hclear₁, h₁⟩ := h₁
  obtain ⟨_, a₂, hdelete₂, _, b₂, hclear₂, h₂⟩ := h₂
  obtain ⟨a, hfirst, hrest⟩ := delete_slices_append hdelete₂
  cases hdelete₁.symm.trans hfirst
  have habsent₁ : ∀ i ∈ List.range' (z₁ / SLICE_SIZE + 1) (z₂ / SLICE_SIZE - z₁ / SLICE_SIZE),
      a₁.get n (slice_key i) = none := by
    intro i hi
    rw [List.mem_range'_1] at hi
    rcases hv : a₁.get n (slice_key i) with _ | v
    · rfl
    · have := (stored_of_delete_slices hn hdelete₁ hv).1
      rw [habsent i (by omega) (by omega)] at this
      cases this
  rw [delete_slices_absent (((delete_slices_only hdelete₁).has n).mpr hn) habsent₁] at hrest
  cases hrest
  cases hclear₁.symm.trans hclear₂
  simp at h₁ h₂
  obtain ⟨_, _, _, _, _, rfl⟩ := h₁
  obtain ⟨_, _, _, _, _, rfl⟩ := h₂
  rfl

/-! ## The first step of truncate, later -/

omit [Features] in
theorem ContentOnly.refl (n : UInt64) (db : Db) : ContentOnly n db db :=
  (SlicesOnly.refl n db).content

omit [Features] in
theorem ContentOnly.trans (h : ContentOnly n db db₁) (h' : ContentOnly n db₁ db₂) :
    ContentOnly n db db₂ :=
  ⟨fun m => (h'.has m).trans (h.has m), fun m k hk => (h'.get m k hk).trans (h.get m k hk),
    h'.super_blk.trans h.super_blk⟩

omit [Features] in
theorem ContentOnly.field (h : ContentOnly n db db') {f : Field} (hf : f ≠ .size) :
    db'.get n f.key = db.get n f.key :=
  h.get n _ fun _ => ⟨fun e => hf (Field.key_injective e), field_ne_slice_key f⟩

/-- Writes change contents only, and the size never shrinks. -/
theorem after_writes_content (calls : List WriteCall) (s : Sys) :
    ContentOnly n s.db (after_writes n calls s).db ∧ ∀ a, s.db.usize n .size = some a →
      ∃ z ≥ a, (after_writes n calls s).db.usize n .size = some z := by
  induction calls generalizing s with
  | nil => exact ⟨.refl n s.db, fun a ha => ⟨a, le_refl a, ha⟩⟩
  | cons call calls ih =>
    rcases Fs.write_state (write_tx n call.buf call.offset call.scratch) s with
      h | ⟨c, db', h, hrun⟩
    · have hstep : after_writes n (call :: calls) s = after_writes n calls s :=
        congrArg (after_writes n calls) h
      rw [hstep]
      exact ih s
    · have hstep : after_writes n (call :: calls) s = after_writes n calls { s with db := db' } :=
        congrArg (after_writes n calls) (congrArg Prod.snd hrun)
      obtain ⟨honly, _, _, size, hsize, hnew⟩ := write_tx_only h
      obtain ⟨honly', hsize'⟩ := ih { s with db := db' }
      rw [hstep]
      refine ⟨honly.trans honly', fun a ha => ?_⟩
      cases ha.symm.trans hsize
      obtain ⟨z, hz, hfinal⟩ := hsize' _ hnew
      exact ⟨z, by omega, hfinal⟩

omit [Features] in
/-- The attributes of a file whose contents have changed. -/
theorem attr_tx_later {attr : DbfsAttr} {z : Nat} (h : attr_tx n db = .Ok (attr, db))
    (honly : ContentOnly n db db') (hz : db'.usize n .size = some z)
    (hlt : z + attr.blksize.toNat < 2 ^ 64) :
    ∃ blocks, attr_tx n db' = .Ok ({ attr with size := z, blocks }, db') := by
  have hu16 : ∀ f : Field, f ≠ .size → db'.u16 n f = db.u16 n f := fun f hf => by
    rw [Db.u16, honly.field hf, ← Db.u16]
  have hu32 : ∀ f : Field, f ≠ .size → db'.u32 n f = db.u32 n f := fun f hf => by
    rw [Db.u32, honly.field hf, ← Db.u32]
  have htime : ∀ f : Field, f ≠ .size → (db'.get n f.key).bind dbfs_time_spec =
      (db.get n f.key).bind dbfs_time_spec := fun f hf => by rw [honly.field hf]
  have hs := (attr_tx_iff.mp h).1
  refine ⟨(z + attr.blksize.toNat - 1) / attr.blksize.toNat, attr_tx_iff.mpr ⟨?_, rfl⟩⟩
  exact
    { size := hz
      mode := (hu16 .mode (by decide)).trans hs.mode
      kind := hs.kind
      hard_links := (hu32 .hard_links (by decide)).trans hs.hard_links
      uid := (hu32 .uid (by decide)).trans hs.uid
      gid := (hu32 .gid (by decide)).trans hs.gid
      block_size := (hu32 .block_size (by decide)).trans hs.block_size
      blocks := ⟨hs.blocks.1, hlt, rfl⟩
      atime := (htime .atime (by decide)).trans hs.atime
      mtime := (htime .mtime (by decide)).trans hs.mtime
      ctime := (htime .ctime (by decide)).trans hs.ctime
      rdev := by
        rw [hu32 .dev (by decide)]
        exact hs.rdev
      rest := hs.rest }

/-! ## Serial orders -/

section orders

variable (n : UInt64) (r_uid r_gid : UInt32) (ctime : DbfsTimeSpec) (f_size : UInt64)

/-- One truncate beside writes of other threads: some come before it, some between its two
steps, some after it. -/
def interleaved (before between behind : List WriteCall) (s : Sys) : Sys :=
  match truncate_attr r_uid r_gid n (after_writes n before s) with
  | (.Ok attr, s₁) =>
    after_writes n behind (Fs.write (truncate_tx n ctime f_size attr) (after_writes n between s₁)).2
  | (_, s₁) => after_writes n behind (after_writes n between s₁)

/-- The whole truncate after some of the writes and before the others. -/
def in_order (first rest : List WriteCall) (s : Sys) : Sys :=
  after_writes n rest (dbfs_common_truncate r_uid r_gid n ctime f_size (after_writes n first s)).2

end orders

/-- Two states of file `n` with the same size and the same slices. -/
def SameFile (n : UInt64) (db₁ db₂ : Db) : Prop :=
  db₁.usize n .size = db₂.usize n .size ∧
    ∀ i, db₁.get n (slice_key i) = db₂.get n (slice_key i)

theorem Beside.sameFile (h : Beside n Eq db₁ db₂) : SameFile n db₁ db₂ := by
  obtain ⟨z, y, hz, hy, rfl⟩ := h.sizes
  exact ⟨hz.trans hy.symm, fun i => (h.same i).symm⟩

/-- Before its second step truncate still knows enough of the file: it is set to a size in a
later slice than the one it knows of, and that is no less than the size by now; or it is cut
where the size by now is in the slice that it knows of, or no slice is stored in between and the
free space has room for the difference. -/
def Settled (n : UInt64) (attr : DbfsAttr) (m : Nat) (db : Db) : Prop :=
  ∀ z, db.usize n .size = some z →
  (attr.size / SLICE_SIZE < m / SLICE_SIZE ∧ z ≤ m) ∨
  (m / SLICE_SIZE ≤ attr.size / SLICE_SIZE ∧ z + attr.blksize.toNat < 2 ^ 64 ∧
    (z / SLICE_SIZE = attr.size / SLICE_SIZE ∨ Room db.disk_size m z ∧
      ∀ i, attr.size / SLICE_SIZE < i → i ≤ z / SLICE_SIZE →
        db.get n (slice_key i) = none))

section truncate

variable {ctime : DbfsTimeSpec} {f_size : UInt64} {r_uid r_gid : UInt32} {attr : DbfsAttr}

/-- A whole truncate, from its two steps. -/
theorem truncate_eq (hattr : truncate_attr r_uid r_gid n s = (.Ok attr, s)) :
    dbfs_common_truncate r_uid r_gid n ctime f_size s =
      Fs.write (truncate_tx n ctime f_size attr) s := by
  rw [dbfs_common_truncate, Fs.bind_eq, hattr]

omit [Features] in
theorem truncate_attr_later {s' : Sys} {z : Nat}
    (h : truncate_attr r_uid r_gid n s = (.Ok attr, s)) (honly : ContentOnly n s.db s'.db)
    (hz : s'.db.usize n .size = some z) (hlt : z + attr.blksize.toNat < 2 ^ 64) :
    ∃ attr', truncate_attr r_uid r_gid n s' = (.Ok attr', s') ∧ attr'.size = z := by
  simp only [truncate_attr, dbfs_common_attr, Fs.bind_ok, Fs.map_err_ok, Fs.read_ok, Fs.ensure_ok,
    Fs.pure_ok] at h ⊢
  obtain ⟨_, _, ⟨⟨db', htx⟩, rfl⟩, _, _, ⟨hacc, rfl⟩, rfl, _⟩ := h
  cases (attr_tx_spec htx).1
  obtain ⟨blocks, htx'⟩ := attr_tx_later htx honly hz hlt
  exact ⟨_, ⟨_, s', ⟨⟨_, htx'⟩, rfl⟩, (), s', ⟨hacc, rfl⟩, rfl, rfl⟩, rfl⟩

theorem Regular.writes (h : Regular s.db n) (calls : List WriteCall) :
    Regular (after_writes n calls s).db n := by
  have hbeside := h.beside.writes (fun z y e hzy => by rw [hzy]) calls
  obtain ⟨z, _, hz, _⟩ := hbeside.sizes
  exact ⟨hbeside.sliced, z, hz⟩

theorem after_writes_disk_size (calls : List WriteCall) (s : Sys) :
    (after_writes n calls s).db.disk_size = s.db.disk_size := by
  rw [Db.disk_size, Db.sb, (after_writes_content (n := n) calls s).1.super_blk]
  rfl

/-- The second step with room for it, as a call. -/
theorem write_truncate_ok (ctime : DbfsTimeSpec) (h : Regular s.db n)
    (hroom : Room s.db.disk_size f_size.toNat attr.size) :
    ∃ db' db₁, (Fs.write (truncate_tx n ctime f_size attr) s).2 = { s with db := db' } ∧
      truncate_blocks n f_size.toNat attr.size s.db = .Ok ((), db₁) ∧
      (∀ i, db'.get n (slice_key i) = db₁.get n (slice_key i)) ∧ db'.Sliced n ∧
      db'.usize n .size = some f_size.toNat := by
  obtain ⟨_, hsize⟩ := h.size
  have hn := Db.has_of_usize hsize
  obtain ⟨a, db', htx⟩ := truncate_tx_run ctime hn (h.sliced.cuttable _ _) hroom
  obtain ⟨db₁, hblocks, hsame⟩ := truncate_tx_blocks htx
  have hrun : Fs.write (truncate_tx n ctime f_size attr) s = (.Ok a, { s with db := db' }) :=
    Fs.write_ok.mpr ⟨db', htx, rfl⟩
  exact ⟨db', db₁, by rw [hrun], hblocks, hsame, truncate_tx_sliced hn h.sliced htx,
    (truncate_tx_only htx).2.1⟩

theorem write_truncate_fails (hroom : ¬ Room s.db.disk_size f_size.toNat attr.size) :
    (Fs.write (truncate_tx n ctime f_size attr) s).2 = s := by
  rcases Fs.write_state (truncate_tx n ctime f_size attr) s with h | ⟨_, _, htx, _⟩
  · exact h
  · obtain ⟨_, hblocks, _⟩ := truncate_tx_blocks htx
    exact absurd (room_of_blocks hblocks) hroom

/-- A second step that finds no room ends like a truncate that comes first. -/
theorem no_room_first (hattr : truncate_attr r_uid r_gid n s = (.Ok attr, s))
    (calls : List WriteCall) (hroom : ¬ Room s.db.disk_size f_size.toNat attr.size) :
    (Fs.write (truncate_tx n ctime f_size attr) (after_writes n calls s)).2 =
      after_writes n calls (dbfs_common_truncate r_uid r_gid n ctime f_size s).2 := by
  rw [truncate_eq hattr, write_truncate_fails hroom, write_truncate_fails]
  rw [after_writes_disk_size]
  exact hroom

/-- Growth into a later slice may as well come first, when the writes do not pass the new end. -/
theorem growth_first (h : Regular s.db n) (hattr : truncate_attr r_uid r_gid n s = (.Ok attr, s))
    (calls : List WriteCall) (hroom : Room s.db.disk_size f_size.toNat attr.size)
    (hgrow : attr.size / SLICE_SIZE < f_size.toNat / SLICE_SIZE) {z : Nat}
    (hz : (after_writes n calls s).db.usize n .size = some z) (hle : z ≤ f_size.toNat) :
    Beside n Eq (Fs.write (truncate_tx n ctime f_size attr) (after_writes n calls s)).2.db
      (after_writes n calls (dbfs_common_truncate r_uid r_gid n ctime f_size s).2).db := by
  have hkeep : ∀ {db db₁ : Db}, truncate_blocks n f_size.toNat attr.size db = .Ok ((), db₁) →
      ∀ i, db₁.get n (slice_key i) = db.get n (slice_key i) := by
    intro db db₁ hblocks i
    simp only [truncate_blocks, ite_ok, hgrow, true_and, not_true_eq_false, false_and, or_false,
      charge_ok] at hblocks
    obtain ⟨_, _, _, rfl⟩ := hblocks
    rfl
  have hroom' : Room (after_writes n calls s).db.disk_size f_size.toNat attr.size := by
    rw [after_writes_disk_size]
    exact hroom
  obtain ⟨a, a₁, ha, hblocks, hsame, hsliced, hsize⟩ :=
    write_truncate_ok ctime (h.writes calls) hroom'
  obtain ⟨b, b₁, hb, hblocks', hsame', hsliced', hsize'⟩ := write_truncate_ok ctime h hroom
  rw [truncate_eq hattr, ha, hb]
  have hlt : attr.size < f_size.toNat := by
    by_contra hge
    have := Nat.div_le_div_right (c := SLICE_SIZE) (not_lt.mp hge)
    omega
  have hstart : Beside n (fun z y => y = max f_size.toNat z) s.db b := by
    refine ⟨h.sliced, fun i => ?_, attr.size, f_size.toNat, (truncate_attr_ok hattr).2, hsize', ?_⟩
    · rw [hsame', hkeep hblocks']
    · omega
  have hend : Beside n (fun z y => y = max f_size.toNat z) (after_writes n calls s).db
      (after_writes n calls { s with db := b }).db :=
    Beside.writes (fun z y e hzy => by simp only [hzy]; omega) hstart calls
  obtain ⟨z', y, hz', hy, hzy⟩ := hend.sizes
  cases hz.symm.trans hz'
  refine ⟨hsliced, fun i => ?_, f_size.toNat, y, hsize, hy, by omega⟩
  rw [hend.same, hsame, hkeep hblocks]

/-- A cut may as well come last, when the size that it knows leads to the same slices. -/
theorem cut_last (h : Regular s.db n) (hattr : truncate_attr r_uid r_gid n s = (.Ok attr, s))
    (calls : List WriteCall) {z : Nat}
    (hz : (after_writes n calls s).db.usize n .size = some z)
    (hcut : f_size.toNat / SLICE_SIZE ≤ attr.size / SLICE_SIZE)
    (hlt : z + attr.blksize.toNat < 2 ^ 64)
    (hroom : Room s.db.disk_size f_size.toNat attr.size)
    (hroom' : Room s.db.disk_size f_size.toNat z)
    (habsent : ∀ i, attr.size / SLICE_SIZE < i → i ≤ z / SLICE_SIZE →
      (after_writes n calls s).db.get n (slice_key i) = none) :
    Beside n Eq (Fs.write (truncate_tx n ctime f_size attr) (after_writes n calls s)).2.db
      (dbfs_common_truncate r_uid r_gid n ctime f_size (after_writes n calls s)).2.db := by
  obtain ⟨honly, hmono⟩ := after_writes_content (n := n) calls s
  obtain ⟨z', hge, hz'⟩ := hmono _ (truncate_attr_ok hattr).2
  cases hz.symm.trans hz'
  obtain ⟨attr', hattr', rfl⟩ := truncate_attr_later hattr honly hz hlt
  have hreg := h.writes calls
  rw [← after_writes_disk_size (n := n) calls] at hroom hroom'
  obtain ⟨a, a₁, ha, hblocks, hsame, hsliced, hsize⟩ := write_truncate_ok ctime hreg hroom
  obtain ⟨b, b₁, hb, hblocks', hsame', _, hsize'⟩ := write_truncate_ok ctime hreg hroom'
  rw [truncate_eq hattr', ha, hb]
  refine ⟨hsliced, fun i => ?_, _, _, hsize, hsize', rfl⟩
  rw [hsame, hsame', truncate_blocks_same (Db.has_of_usize hz) hcut (Nat.div_le_div_right hge)
    habsent hblocks hblocks']

end truncate

section

variable {ctime : DbfsTimeSpec} {f_size : UInt64} {r_uid r_gid : UInt32} {attr : DbfsAttr}

/-- The room for a cut depends on the slice of the old end only. -/
theorem room_congr {d : Option Nat} {m a b : Nat} (hcut : m / SLICE_SIZE ≤ a / SLICE_SIZE)
    (hab : b / SLICE_SIZE = a / SLICE_SIZE) (h : Room d m a) : Room d m b := by
  obtain ⟨d, hd, hroom⟩ := h
  refine ⟨d, hd, ?_⟩
  rw [if_neg (not_lt.mpr hcut)] at hroom
  rw [hab, if_neg (not_lt.mpr hcut)]
  exact hroom

/-- The two steps with writes in between end like a whole truncate before or after these
writes. -/
theorem two_steps_serial (h : Regular s.db n)
    (hattr : truncate_attr r_uid r_gid n s = (.Ok attr, s)) (calls : List WriteCall)
    (hsettled : ∀ a s₂,
      Fs.write (truncate_tx n ctime f_size attr) (after_writes n calls s) = (.Ok a, s₂) →
      Settled n attr f_size.toNat (after_writes n calls s).db) :
    Beside n Eq (Fs.write (truncate_tx n ctime f_size attr) (after_writes n calls s)).2.db
        (after_writes n calls (dbfs_common_truncate r_uid r_gid n ctime f_size s).2).db ∨
      Beside n Eq (Fs.write (truncate_tx n ctime f_size attr) (after_writes n calls s)).2.db
        (dbfs_common_truncate r_uid r_gid n ctime f_size (after_writes n calls s)).2.db := by
  have hafter := h.writes calls
  have hdisk := after_writes_disk_size (n := n) calls s
  by_cases hroom : Room s.db.disk_size f_size.toNat attr.size
  · obtain ⟨z, hz⟩ := hafter.size
    obtain ⟨a, db', htx⟩ := truncate_tx_run ctime (Db.has_of_usize hz)
      (hafter.sliced.cuttable _ _) (hdisk ▸ hroom)
    rcases hsettled a _ (Fs.write_ok.mpr ⟨db', htx, rfl⟩) z hz with
      ⟨hgrow, hle⟩ | ⟨hcut, hlt, hslice | ⟨hroom', habsent⟩⟩
    · exact .inl (growth_first h hattr calls hroom hgrow hz hle)
    · refine .inr (cut_last h hattr calls hz hcut hlt hroom (room_congr hcut hslice hroom) ?_)
      intro i h1 h2
      omega
    · exact .inr (cut_last h hattr calls hz hcut hlt hroom (hdisk ▸ hroom') habsent)
  · left
    rw [no_room_first hattr calls hroom, truncate_eq hattr, write_truncate_fails hroom]
    exact hafter.beside

/-- A truncate whose first step fails changes nothing. -/
theorem truncate_stays (hattr : ∀ a, (truncate_attr r_uid r_gid n s).1 ≠ .Ok a) :
    (dbfs_common_truncate r_uid r_gid n ctime f_size s).2 = s := by
  have hstate := truncate_attr_state r_uid r_gid n s
  rw [dbfs_common_truncate, Fs.bind_eq]
  rcases htwo : truncate_attr r_uid r_gid n s with ⟨attr | e | _, s₁⟩
  · exact absurd (congrArg Prod.fst htwo) (hattr attr)
  · rw [← hstate, htwo]
  · rw [← hstate, htwo]

end

/-! ## Slices behind the end -/

/-- No slice is stored behind the one that holds the end of the file. -/
def NoneBehind (db : Db) (n : UInt64) : Prop :=
  ∀ i < 2 ^ 32, (db.get n (slice_key i)).isSome → ∀ size, db.usize n .size = some size →
    i ≤ size / SLICE_SIZE

theorem SameFile.noneBehind (h : SameFile n db₁ db₂) (h₂ : NoneBehind db₂ n) :
    NoneBehind db₁ n := by
  intro i hi hsome size hsize
  rw [h.2] at hsome
  rw [h.1] at hsize
  exact h₂ i hi hsome size hsize

/-- The slices that are stored after a write were stored before it, or are among those that it
goes through. -/
theorem stored_of_write_loop {scratch : Scratch} {fuel num offset count c : Nat} {rest : Bytes}
    (hoff : offset < SLICE_SIZE)
    (h : write_loop n scratch fuel num offset count rest db = .Ok (c, db')) {i : Nat}
    (hi : (db'.get n (slice_key i)).isSome) :
    (db.get n (slice_key i)).isSome ∨ ∃ j, slice_key i = slice_key j ∧
      j * SLICE_SIZE ≤ num * SLICE_SIZE + offset + rest.length := by
  induction fuel generalizing num offset count rest db with
  | zero => simp [write_loop] at h
  | succ fuel ih =>
    simp [write_loop] at h
    obtain ⟨hn, data, _, _, h⟩ := h
    -- the turn itself stores slice `num`
    have hturn : ((db.put n (slice_key num) data).get n (slice_key i)).isSome →
        (db.get n (slice_key i)).isSome ∨ ∃ j, slice_key i = slice_key j ∧
          j * SLICE_SIZE ≤ num * SLICE_SIZE + offset + rest.length := by
      intro hput
      rw [Db.get_put] at hput
      split_ifs at hput with hkey
      · exact .inr ⟨num, hkey.2.1, by omega⟩
      · exact .inl hput
    rcases h with ⟨_, _, hdb⟩ | ⟨hmore, h⟩
    · rw [hdb] at hi
      exact hturn hi
    · rcases ih (Nat.mod_lt _ SLICE_SIZE_pos) h with hput | ⟨j, hj, hle⟩
      · exact hturn hput
      · have hmin : min rest.length (SLICE_SIZE - offset) = SLICE_SIZE - offset := by omega
        rw [hmin, Nat.add_sub_cancel' (Nat.le_of_lt hoff), Nat.mod_self, List.length_drop,
          Nat.add_mul, Nat.one_mul] at hle
        exact .inr ⟨j, hj, by omega⟩

omit [Features] in
theorem le_of_slice_key_eq {i j : Nat} (hi : i < 2 ^ 32) (h : slice_key i = slice_key j) :
    i ≤ j := by
  have h := congrArg UInt32.toNat (generate_data_key_with_number_inj.mp h)
  rw [UInt32.toNat_ofNat', UInt32.toNat_ofNat', Nat.mod_eq_of_lt hi] at h
  rw [h]
  exact Nat.mod_le _ _

theorem NoneBehind.write {scratch : Scratch} {buf : Bytes} {offset c : Nat}
    (hnone : NoneBehind db n) (h : write_tx n buf offset scratch db = .Ok (c, db')) :
    NoneBehind db' n := by
  obtain ⟨_, _, _, size, hsize, hnew⟩ := write_tx_only h
  simp [write_tx] at h
  obtain ⟨_, _, _, count, db₁, hloop, _, hend⟩ := h
  have hslices : ∀ i, db'.get n (slice_key i) = db₁.get n (slice_key i) := by
    intro i
    rcases hend with ⟨_, ⟨_, rfl⟩, _⟩ | ⟨_, _, rfl⟩
    · simp [Ne.symm (field_ne_slice_key _ _)]
    · rfl
  intro i hi hsome size' hsize'
  cases hnew.symm.trans hsize'
  rw [hslices] at hsome
  rw [Nat.le_div_iff_mul_le SLICE_SIZE_pos]
  rcases stored_of_write_loop (Nat.mod_lt _ SLICE_SIZE_pos) hloop hsome with hold | ⟨j, hj, hle⟩
  · have := hnone i hi hold size hsize
    rw [Nat.le_div_iff_mul_le SLICE_SIZE_pos] at this
    omega
  · have hij := Nat.mul_le_mul_right SLICE_SIZE (le_of_slice_key_eq hi hj)
    obtain ⟨hpos, _⟩ := Slices.pos_eq SLICE_SIZE_pos (p := offset) rfl rfl
    omega

theorem NoneBehind.writes (h : NoneBehind s.db n) (calls : List WriteCall) :
    NoneBehind (after_writes n calls s).db n := by
  induction calls generalizing s with
  | nil => exact h
  | cons call calls ih =>
    apply ih
    change NoneBehind (Fs.write (write_tx n call.buf call.offset call.scratch) s).2.db n
    rcases Fs.write_state (write_tx n call.buf call.offset call.scratch) s with
      hs | ⟨c, db', htx, hs⟩
    · rw [hs]
      exact h
    · rw [hs]
      exact h.write htx

/-- Clearing a slice stores none. -/
theorem stored_of_clear_slice {num offset : Nat} {u : Unit}
    (h : clear_slice n num offset db = .Ok (u, db')) {k : Bytes} (hk : (db'.get n k).isSome) :
    (db.get n k).isSome := by
  simp only [clear_slice, bind_ok, get_kv_ok] at h
  obtain ⟨kv, _, ⟨_, hkv, rfl⟩, h⟩ := h
  rcases kv with _ | v
  · simp only [pure_ok] at h
    rw [h.2] at hk
    exact hk
  · simp only [bind_ok, assert_ok, put_ok] at h
    obtain ⟨_, _, ⟨_, rfl⟩, _, rfl⟩ := h
    rw [Db.get_put] at hk
    split_ifs at hk with hkey
    · rw [hkey.2.1, ← hkv]
      rfl
    · exact hk

/-- A file that is set to `m` bytes, by its own size, keeps no slice behind the one of `m`. -/
theorem NoneBehind.blocks {m size : Nat} (hnone : NoneBehind db n)
    (hsize : db.usize n .size = some size) (h : truncate_blocks n m size db = .Ok ((), db'))
    {i : Nat} (hi : i < 2 ^ 32) (hsome : (db'.get n (slice_key i)).isSome) :
    i ≤ m / SLICE_SIZE := by
  simp only [truncate_blocks, ite_ok, charge_ok] at h
  rcases h with ⟨hgrow, d, _, _, rfl⟩ | ⟨hgrow, h⟩
  · have := hnone i hi hsome size hsize
    omega
  · simp only [bind_ok] at h
    obtain ⟨_, db₁, hdelete, _, db₂, hclear, h⟩ := h
    simp at h
    obtain ⟨_, _, _, _, _, rfl⟩ := h
    obtain ⟨v, hv⟩ := Option.isSome_iff_exists.mp (stored_of_clear_slice hclear hsome)
    obtain ⟨hold, hkept⟩ := stored_of_delete_slices (Db.has_of_usize hsize) hdelete hv
    have hle := hnone i hi (hold ▸ rfl) size hsize
    by_contra hlt
    exact hkept i (List.mem_range'_1.mpr (by omega)) rfl

theorem NoneBehind.truncate {r_uid r_gid : UInt32} {ctime : DbfsTimeSpec} {f_size : UInt64}
    (h : NoneBehind s.db n) :
    NoneBehind (dbfs_common_truncate r_uid r_gid n ctime f_size s).2.db n := by
  by_cases hok : ∃ attr, (truncate_attr r_uid r_gid n s).1 = .Ok attr
  · obtain ⟨attr, hok⟩ := hok
    have hattr := Prod.ext (x := truncate_attr r_uid r_gid n s) (y := (.Ok attr, s)) hok
      (truncate_attr_state r_uid r_gid n s)
    rw [truncate_eq hattr]
    rcases Fs.write_state (truncate_tx n ctime f_size attr) s with hs | ⟨_, db', htx, hs⟩
    · rw [hs]
      exact h
    · rw [hs]
      obtain ⟨db₁, hblocks, hsame⟩ := truncate_tx_blocks htx
      intro i hi hsome size hsize
      cases (truncate_tx_only htx).2.1.symm.trans hsize
      change (db'.get n (slice_key i)).isSome at hsome
      rw [hsame] at hsome
      exact h.blocks (truncate_attr_ok hattr).2 hblocks hi hsome
  · rw [truncate_stays (not_exists.mp hok)]
    exact h

theorem after_writes_append (first rest : List WriteCall) (s : Sys) :
    after_writes n (first ++ rest) s = after_writes n rest (after_writes n first s) :=
  List.foldl_append

theorem Beside.behind (h : Beside n Eq s₁.db s₂.db) (calls : List WriteCall) :
    SameFile n (after_writes n calls s₁).db (after_writes n calls s₂).db :=
  (h.writes (fun z y e hzy => by rw [hzy]) calls).sameFile

end serial

/-- Truncate and writes on one file end as in a serial order, and with no slice behind the end,
when truncate still knows enough of the file at its second step. -/
theorem truncate_serialises [Features] (n : UInt64) (r_uid r_gid : UInt32) (ctime : DbfsTimeSpec)
    (f_size : UInt64) (before between behind : List WriteCall) (s : Sys) (hfile : Regular s.db n)
    (hsettled : ∀ attr s₁ a s₂,
      truncate_attr r_uid r_gid n (after_writes n before s) = (.Ok attr, s₁) →
      Fs.write (truncate_tx n ctime f_size attr) (after_writes n between s₁) = (.Ok a, s₂) →
      Settled n attr f_size.toNat (after_writes n between s₁).db) :
    (∃ first rest, (first ++ rest).Perm (before ++ between ++ behind) ∧
        SameFile n (interleaved n r_uid r_gid ctime f_size before between behind s).db
          (in_order n r_uid r_gid ctime f_size first rest s).db) ∧
      (NoneBehind s.db n →
        NoneBehind (interleaved n r_uid r_gid ctime f_size before between behind s).db n) := by
  have hserial : ∃ first rest, (first ++ rest).Perm (before ++ between ++ behind) ∧
      SameFile n (interleaved n r_uid r_gid ctime f_size before between behind s).db
        (in_order n r_uid r_gid ctime f_size first rest s).db := by
    have hbefore := hfile.writes before
    have hstate := truncate_attr_state r_uid r_gid n (after_writes n before s)
    by_cases hok : ∃ attr, (truncate_attr r_uid r_gid n (after_writes n before s)).1 = .Ok attr
    · obtain ⟨attr, hok⟩ := hok
      have hattr := Prod.ext (x := truncate_attr r_uid r_gid n (after_writes n before s))
        (y := (.Ok attr, after_writes n before s)) hok hstate
      unfold interleaved in_order
      rw [hattr]
      rcases two_steps_serial hbefore hattr between fun a s₂ => hsettled attr _ a s₂ hattr with
        hfirst | hlast
      · refine ⟨before, between ++ behind, by rw [List.append_assoc], ?_⟩
        rw [after_writes_append]
        exact hfirst.behind behind
      · refine ⟨before ++ between, behind, .refl _, ?_⟩
        rw [after_writes_append]
        exact hlast.behind behind
    · refine ⟨before, between ++ behind, by rw [List.append_assoc], ?_⟩
      rw [not_exists] at hok
      unfold interleaved in_order
      rw [truncate_stays hok, after_writes_append]
      split
      · rename_i attr s₁ hattr
        exact absurd (congrArg Prod.fst hattr) (hok attr)
      · rename_i r s₁ _ hattr
        rw [hattr] at hstate
        rw [show s₁ = after_writes n before s from hstate]
        exact ⟨rfl, fun _ => rfl⟩
  refine ⟨hserial, fun hnone => ?_⟩
  obtain ⟨first, rest, _, hsame⟩ := hserial
  exact hsame.noneBehind (((hnone.writes first).truncate).writes rest)

/-! ## A slice behind the end -/

section sample

attribute [local instance] sli512_features

/-- A write of two slices. -/
def two_slices_write : WriteCall := ⟨0, List.replicate 1024 1, filled_with 0⟩

/-- A new file is cut to 0 bytes, with a write between the two steps. -/
def cut_beside_write : Sys := interleaved 2 0 0 .default 0 [] [two_slices_write] [] with_new_file.2

theorem slice_left_behind :
    cut_beside_write.db.usize 2 .size = some 0 ∧
      cut_beside_write.db.get 2 (slice_key 1) = some (List.replicate 512 1) ∧
      ¬ ∃ first rest, (first ++ rest).Perm [two_slices_write] ∧
        SameFile 2 cut_beside_write.db
          (in_order 2 0 0 .default 0 first rest with_new_file.2).db := by
  have hsize : cut_beside_write.db.usize 2 .size = some 0 := by decide +kernel
  have hslice : cut_beside_write.db.get 2 (slice_key 1) = some (List.replicate 512 1) := by
    decide +kernel
  refine ⟨hsize, hslice, ?_⟩
  rintro ⟨first, rest, hperm, hsame⟩
  rw [List.perm_singleton, List.append_eq_singleton_iff] at hperm
  rcases hperm with ⟨rfl, rfl⟩ | ⟨rfl, rfl⟩
  · -- the truncate first: the write then sets the size
    have hfirst :
        (in_order 2 0 0 .default 0 [] [two_slices_write] with_new_file.2).db.usize 2 .size =
        some 1024 := by decide +kernel
    rw [SameFile, hsize, hfirst] at hsame
    simp at hsame
  · -- the truncate last: it deletes the slice
    have hlast : (in_order 2 0 0 .default 0 [two_slices_write] [] with_new_file.2).db.get 2
        (slice_key 1) = none := by decide +kernel
    have := hsame.2 1
    rw [hslice, hlast] at this
    cases this

/-- A write of three bytes stays in the slice that the truncate knows of. -/
theorem cut_inside_the_slice :
    ∃ first rest, (first ++ rest).Perm [⟨0, [1, 2, 3], filled_with 0⟩] ∧
      SameFile 2
        (interleaved 2 0 0 .default 1 [] [⟨0, [1, 2, 3], filled_with 0⟩] [] with_new_file.2).db
        (in_order 2 0 0 .default 1 first rest with_new_file.2).db := by
  have hnew : NewFile with_new_file.2.db 2 := create_new_file (by decide) with_new_file_eq
  have hattr : truncate_attr 0 0 2 with_new_file.2 = (.Ok new_file_attr, with_new_file.2) := by
    decide +kernel
  have hsize : (after_writes 2 [⟨0, [1, 2, 3], filled_with 0⟩] with_new_file.2).db.usize 2 .size =
      some 3 := by decide +kernel
  refine (truncate_serialises 2 0 0 .default 1 [] [⟨0, [1, 2, 3], filled_with 0⟩] []
    with_new_file.2 ⟨whole_slices.mp hnew.holds.whole, 0, hnew.size⟩ ?_).1
  intro attr s₁ a s₂ hattr' _ z hz
  cases hattr.symm.trans hattr'
  cases hsize.symm.trans hz
  exact .inr ⟨by decide, by decide, .inl (by decide)⟩

end sample

end dbfs2
