-- Two runs side by side. Two transactions go in lockstep when, started on related
-- databases, they end in the same way with the same result and leave related
-- databases. The rules follow the way transactions are put together.
import Dbfs2.FileSpec

namespace dbfs2

open common Tx inode file

variable {α β : Type} {R : Db → Db → Prop}

namespace Tx

def Lockstep (R : Db → Db → Prop) (x y : Tx α) : Prop := ∀ db₁ db₂, R db₁ db₂ →
  (∃ a db₁' db₂', x db₁ = .Ok (a, db₁') ∧ y db₂ = .Ok (a, db₂') ∧ R db₁' db₂') ∨
    (∃ e, x db₁ = .Err e ∧ y db₂ = .Err e) ∨ (x db₁ = .Panic ∧ y db₂ = .Panic)

namespace Lockstep

protected theorem pure (a : α) : Lockstep R (pure a) (pure a) := fun db₁ db₂ h =>
  .inl ⟨a, db₁, db₂, rfl, rfl, h⟩

protected theorem fail (e : DbfsError) : Lockstep R (fail e : Tx α) (fail e) := fun _ _ _ =>
  .inr (.inl ⟨e, rfl, rfl⟩)

protected theorem bind {x y : Tx α} {g k : α → Tx β} (h : Lockstep R x y)
    (hg : ∀ a, Lockstep R (g a) (k a)) : Lockstep R (x >>= g) (y >>= k) := by
  intro db₁ db₂ hR
  rcases h db₁ db₂ hR with ⟨a, db₁', db₂', h₁, h₂, hR'⟩ | ⟨e, h₁, h₂⟩ | ⟨h₁, h₂⟩
  · rw [bind_of_ok h₁, bind_of_ok h₂]
    exact hg a db₁' db₂' hR'
  · exact .inr (.inl ⟨e, bind_of_err h₁ g, bind_of_err h₂ k⟩)
  · exact .inr (.inr ⟨bind_of_panic h₁ g, bind_of_panic h₂ k⟩)

protected theorem ite {c : Prop} [Decidable c] {x x' y y' : Tx α} (h : Lockstep R x y)
    (h' : Lockstep R x' y') : Lockstep R (if c then x else x') (if c then y else y') := by
  split_ifs
  · exact h
  · exact h'

/-- A transaction that only looks, at what the two databases have in common. -/
protected theorem look {f : Db → DbfsResult α} (h : ∀ db₁ db₂, R db₁ db₂ → f db₁ = f db₂) :
    Lockstep R (fun db => (f db).bind fun a => .Ok (a, db))
      (fun db => (f db).bind fun a => .Ok (a, db)) := by
  intro db₁ db₂ hR
  simp only [← h db₁ db₂ hR]
  rcases f db₁ with a | e | _
  · exact .inl ⟨a, db₁, db₂, rfl, rfl, hR⟩
  · exact .inr (.inl ⟨e, rfl, rfl⟩)
  · exact .inr (.inr ⟨rfl, rfl⟩)

protected theorem unwrap (o : Option α) : Lockstep R (unwrap o) (unwrap o) :=
  .look fun _ _ _ => rfl

protected theorem ensure (c : Bool) (e : DbfsError) : Lockstep R (ensure c e) (ensure c e) :=
  .ite (.pure ()) (.fail e)

protected theorem unwrap_ok {x y : Tx α} (h : Lockstep R x y) :
    Lockstep R (unwrap_ok x) (unwrap_ok y) := by
  intro db₁ db₂ hR
  unfold unwrap_ok
  rcases h db₁ db₂ hR with ⟨a, db₁', db₂', h₁, h₂, hR'⟩ | ⟨e, h₁, h₂⟩ | ⟨h₁, h₂⟩
  · rw [h₁, h₂]
    exact .inl ⟨a, db₁', db₂', rfl, rfl, hR'⟩
  · rw [h₁, h₂]
    exact .inr (.inr ⟨rfl, rfl⟩)
  · rw [h₁, h₂]
    exact .inr (.inr ⟨rfl, rfl⟩)

end Lockstep

end Tx

namespace Fs

/-- Two calls that end in the same way and leave related databases. -/
def Lockstep (R : Db → Db → Prop) (x y : Fs α) : Prop := ∀ s₁ s₂, R s₁.db s₂.db →
  (x s₁).1 = (y s₂).1 ∧ R (x s₁).2.db (y s₂).2.db

namespace Lockstep

protected theorem pure (a : α) : Lockstep R (pure a) (pure a) := fun _ _ h => ⟨rfl, h⟩

protected theorem bind {x y : Fs α} {g k : α → Fs β} (h : Lockstep R x y)
    (hg : ∀ a, Lockstep R (g a) (k a)) : Lockstep R (x >>= g) (y >>= k) := by
  intro s₁ s₂ hR
  obtain ⟨hres, hR'⟩ := h s₁ s₂ hR
  rw [bind_eq, bind_eq]
  rcases hx : x s₁ with ⟨rx, s₁'⟩
  rcases hy : y s₂ with ⟨ry, s₂'⟩
  rw [hx, hy] at hres hR'
  simp only at hres hR'
  subst hres
  rcases rx with a | e | _
  · exact hg a s₁' s₂' hR'
  · exact ⟨rfl, hR'⟩
  · exact ⟨rfl, hR'⟩

protected theorem ensure (c : Bool) (e : DbfsError) : Lockstep R (ensure c e) (ensure c e) := by
  intro s₁ s₂ hR
  unfold ensure
  split_ifs
  · exact ⟨rfl, hR⟩
  · exact ⟨rfl, hR⟩

protected theorem map_err (e : DbfsError) {x y : Fs α} (h : Lockstep R x y) :
    Lockstep R (map_err e x) (map_err e y) := by
  intro s₁ s₂ hR
  obtain ⟨hres, hR'⟩ := h s₁ s₂ hR
  exact ⟨congrArg (DbfsResult.map_err e) hres, hR'⟩

protected theorem write {x y : Tx α} (h : Tx.Lockstep R x y) :
    Lockstep R (write x) (write y) := by
  intro s₁ s₂ hR
  unfold write
  rcases h s₁.db s₂.db hR with ⟨a, db₁', db₂', h₁, h₂, hR'⟩ | ⟨e, h₁, h₂⟩ | ⟨h₁, h₂⟩
  · rw [h₁, h₂]
    exact ⟨rfl, hR'⟩
  · rw [h₁, h₂]
    exact ⟨rfl, hR⟩
  · rw [h₁, h₂]
    exact ⟨rfl, hR⟩

protected theorem read {x y : Tx α} (h : Tx.Lockstep R x y) : Lockstep R (read x) (read y) := by
  intro s₁ s₂ hR
  unfold read
  rcases h s₁.db s₂.db hR with ⟨a, db₁', db₂', h₁, h₂, _⟩ | ⟨e, h₁, h₂⟩ | ⟨h₁, h₂⟩
  · rw [h₁, h₂]
    exact ⟨rfl, hR⟩
  · rw [h₁, h₂]
    exact ⟨rfl, hR⟩
  · rw [h₁, h₂]
    exact ⟨rfl, hR⟩

end Lockstep

end Fs

/-! ## Databases that differ in the bytes of one file -/

section twin

variable [Features] {n : UInt64} {db db' db₁ db₂ : Db}

/-- The slices of file `n` all have their full size. -/
def Db.Sliced (db : Db) (n : UInt64) : Prop :=
  ∀ i v, db.get n (slice_key i) = some v → v.length = SLICE_SIZE

theorem Db.Sliced.put (h : db.Sliced n) (i : Nat) {v : Bytes} (hv : v.length = SLICE_SIZE) :
    (db.put n (slice_key i) v).Sliced n := by
  intro j w hw
  rw [Db.get_put] at hw
  split_ifs at hw
  · cases hw
    exact hv
  · exact h j w hw

theorem Db.Sliced.delete (h : db.Sliced n) (i : Nat) : (db.delete n (slice_key i)).Sliced n := by
  intro j w hw
  rw [Db.get_delete] at hw
  split_ifs at hw
  exact h j w hw

theorem Db.Sliced.put_field (h : db.Sliced n) (m : UInt64) (f : Field) (v : Bytes) :
    (db.put m f.key v).Sliced n := by
  intro j w hw
  rw [Db.get_put, if_neg fun e => field_ne_slice_key f j e.2.1.symm] at hw
  exact h j w hw

/-- Two databases that differ in the slices of file `n` only: in the bytes or in what is stored
at all, never in the length of a slice. -/
structure Twin (n : UInt64) (db₁ db₂ : Db) : Prop where
  only : SlicesOnly n db₁ db₂
  has : db₁.Has n
  sliced₁ : db₁.Sliced n
  sliced₂ : db₂.Sliced n

/-- A transaction that does nothing but store, change and delete slices of file `n`, and always
ends with the result `a`. -/
def SliceWork (n : UInt64) (a : α) (x : Tx α) : Prop := ∀ db, db.Has n → db.Sliced n →
  ∃ db', x db = .Ok (a, db') ∧ SlicesOnly n db db' ∧ db'.Sliced n

namespace Twin

theorem slice_work {a : α} {x y : Tx α} (hx : SliceWork n a x) (hy : SliceWork n a y) :
    Tx.Lockstep (Twin n) x y := by
  intro db₁ db₂ h
  obtain ⟨db₁', h₁, honly₁, hsliced₁⟩ := hx db₁ h.has h.sliced₁
  obtain ⟨db₂', h₂, honly₂, hsliced₂⟩ := hy db₂ ((h.only.has n).mpr h.has) h.sliced₂
  exact .inl ⟨a, db₁', db₂', h₁, h₂, (honly₁.symm.trans h.only).trans honly₂,
    (honly₁.has n).mpr h.has, hsliced₁, hsliced₂⟩

theorem get_bucket (m : UInt64) : Tx.Lockstep (Twin n) (Tx.get_bucket m) (Tx.get_bucket m) := by
  intro db₁ db₂ h
  unfold Tx.get_bucket
  simp only [h.only.has m]
  split_ifs
  · exact .inl ⟨(), db₁, db₂, rfl, rfl, h⟩
  · exact .inr (.inl ⟨_, rfl, rfl⟩)

theorem read_u16 (m : UInt64) (f : Field) :
    Tx.Lockstep (Twin n) (Tx.read_u16 m f) (Tx.read_u16 m f) :=
  .look fun db₁ db₂ h => by rw [Db.u16, Db.u16, h.only.field]

theorem read_u32 (m : UInt64) (f : Field) :
    Tx.Lockstep (Twin n) (Tx.read_u32 m f) (Tx.read_u32 m f) :=
  .look fun db₁ db₂ h => by rw [Db.u32, Db.u32, h.only.field]

theorem read_usize (m : UInt64) (f : Field) :
    Tx.Lockstep (Twin n) (Tx.read_usize m f) (Tx.read_usize m f) :=
  .look fun db₁ db₂ h => by rw [Db.usize, Db.usize, h.only.field]

theorem read_time (m : UInt64) (f : Field) :
    Tx.Lockstep (Twin n) (Tx.read_time m f) (Tx.read_time m f) :=
  .look fun db₁ db₂ h => by rw [h.only.field]

theorem get_super_blk : Tx.Lockstep (Twin n) Tx.get_super_blk Tx.get_super_blk := by
  intro db₁ db₂ h
  unfold Tx.get_super_blk
  rw [h.only.super_blk]
  split_ifs
  · exact .inl ⟨(), db₁, db₂, rfl, rfl, h⟩
  · exact .inr (.inl ⟨_, rfl, rfl⟩)

theorem sb_usize (f : Field) : Tx.Lockstep (Twin n) (Tx.sb_usize f) (Tx.sb_usize f) :=
  .look fun db₁ db₂ h => by rw [Db.sb, Db.sb, h.only.super_blk]

theorem put_field (m : UInt64) (f : Field) (v : Bytes) :
    Tx.Lockstep (Twin n) (Tx.put m f.key v) (Tx.put m f.key v) := by
  intro db₁ db₂ h
  unfold Tx.put
  simp only [h.only.has m]
  split_ifs with hm
  · refine .inl ⟨(), _, _, rfl, rfl, ⟨fun i => ?_, fun i k hk => ?_, h.only.super_blk⟩, ?_,
      h.sliced₁.put_field m f v, h.sliced₂.put_field m f v⟩
    · simp [h.only.has i]
    · simp only [Db.get_put, h.only.has m, h.only.get i k hk]
    · exact (Db.has_put _ _ _ _ _).mpr h.has
  · exact .inr (.inr ⟨rfl, rfl⟩)

theorem sb_put (f : Field) (v : Bytes) : Tx.Lockstep (Twin n) (Tx.sb_put f v) (Tx.sb_put f v) := by
  intro db₁ db₂ h
  unfold Tx.sb_put
  rw [h.only.super_blk]
  split_ifs
  · refine .inl ⟨(), _, _, rfl, rfl, ⟨h.only.has, h.only.get, ?_⟩, h.has, h.sliced₁, h.sliced₂⟩
    simp only [Db.sb_put, h.only.super_blk]
  · exact .inr (.inr ⟨rfl, rfl⟩)

end Twin

/-! ## Reads and writes of one file beside its twin -/

theorem attr_lockstep : Tx.Lockstep (Twin n) (attr_tx n) (attr_tx n) := by
  refine .bind (Twin.get_bucket n) fun _ => .bind (Twin.read_usize n _) fun _ =>
    .bind (Twin.read_u16 n _) fun _ => .bind (.unwrap _) fun _ => .bind (Twin.read_u32 n _) fun _ =>
    .bind (Twin.read_u32 n _) fun _ => .bind (Twin.read_u32 n _) fun _ =>
    .bind (Twin.read_u32 n _) fun _ => .bind (.unwrap _) fun _ => .bind (.unwrap _) fun _ =>
    .bind (.unwrap _) fun _ => .bind (Twin.read_time n _) fun _ =>
    .bind (Twin.read_time n _) fun _ => .bind (Twin.read_time n _) fun _ => ?_
  exact .ite (.bind (Twin.read_u32 n _) fun _ => .pure _) (.bind (.pure 0) fun _ => .pure _)

theorem write_loop_work {fuel : Nat} (num : Nat) {offset : Nat} (count : Nat) {rest : Bytes}
    (s : Scratch) (hfuel : rest.length < fuel) (hoff : offset < SLICE_SIZE) :
    SliceWork n (count + rest.length) (write_loop n s fuel num offset count rest) := by
  induction fuel generalizing num offset count rest with
  | zero => omega
  | succ fuel ih =>
    intro db hn hsliced
    have hlen : (rest.take (min rest.length (SLICE_SIZE - offset))).length =
        min rest.length (SLICE_SIZE - offset) := by
      rw [List.length_take]
      omega
    have hfit :
        offset + (rest.take (min rest.length (SLICE_SIZE - offset))).length ≤ SLICE_SIZE := by
      omega
    have hdata := write_data_eq (hsliced num) (s.length_slice num) hfit
    have hbase : ((db.get n (slice_key num)).getD (s.slice num)).length = SLICE_SIZE := by
      rcases hv : db.get n (slice_key num) with _ | v
      · exact s.length_slice num
      · exact hsliced num v hv
    have hnew : (Slices.overlay ((db.get n (slice_key num)).getD (s.slice num)) offset
        (rest.take (min rest.length (SLICE_SIZE - offset)))).length = SLICE_SIZE := by
      rw [Slices.length_overlay_of_fits (by omega), hbase]
    have hput := slicesOnly_put db n num (Slices.overlay ((db.get n (slice_key num)).getD
      (s.slice num)) offset (rest.take (min rest.length (SLICE_SIZE - offset))))
    rw [write_loop, bind_of_ok (get_kv_ok.mpr ⟨hn, rfl, rfl⟩),
      bind_of_ok (unwrap_ok_iff.mpr ⟨hdata, rfl⟩), bind_of_ok (put_ok (u := ()).mpr ⟨hn, rfl⟩)]
    by_cases hlast : min rest.length (SLICE_SIZE - offset) = rest.length
    · rw [if_pos hlast, hlast]
      exact ⟨_, rfl, hlast ▸ hput, hlast ▸ hsliced.put num hnew⟩
    · rw [if_neg hlast]
      have hdrop : (rest.drop (min rest.length (SLICE_SIZE - offset))).length < fuel := by
        rw [List.length_drop]
        omega
      obtain ⟨db', hrun, honly, hsliced'⟩ := ih (num + 1)
        (count + min rest.length (SLICE_SIZE - offset)) hdrop
        (Nat.mod_lt (offset + min rest.length (SLICE_SIZE - offset)) SLICE_SIZE_pos) _
        ((Db.has_put _ _ _ _ _).mpr hn) (hsliced.put num hnew)
      refine ⟨db', ?_, hput.trans honly, hsliced'⟩
      rw [hrun, List.length_drop]
      congr 2
      omega

theorem delete_slices_work (is : List Nat) : SliceWork n () (delete_slices n is) := by
  induction is with
  | nil => exact fun db _ hsliced => ⟨db, rfl, .refl n db, hsliced⟩
  | cons i is ih =>
    intro db hn hsliced
    rw [delete_slices, bind_of_ok (get_kv_ok.mpr ⟨hn, rfl, rfl⟩)]
    by_cases hsome : (db.get n (slice_key i)).isSome
    · obtain ⟨db', hrun, honly, hsliced'⟩ := ih _ ((Db.has_delete db n n (slice_key i)).mpr hn)
        (hsliced.delete i)
      refine ⟨db', ?_, (slicesOnly_delete db n i).trans honly, hsliced'⟩
      rw [if_pos hsome, bind_of_ok (delete_ok (u := ()).mpr ⟨hsome, rfl⟩)]
      exact hrun
    · rw [if_neg hsome]
      exact ih db hn hsliced

theorem clear_slice_work (num : Nat) {offset : Nat} (hoff : offset < SLICE_SIZE) :
    SliceWork n () (clear_slice n num offset) := by
  intro db hn hsliced
  rw [clear_slice, bind_of_ok (get_kv_ok.mpr ⟨hn, rfl, rfl⟩)]
  rcases hv : db.get n (slice_key num) with _ | v
  · exact ⟨db, rfl, .refl n db, hsliced⟩
  · have hlen := hsliced num v hv
    simp only
    rw [bind_of_ok (assert_ok (u := ()).mpr ⟨by simp [hlen], rfl⟩)]
    refine ⟨_, put_ok.mpr ⟨hn, rfl⟩, slicesOnly_put db n num _, hsliced.put num ?_⟩
    simp only [List.length_append, List.length_take, List.length_replicate, List.length_drop]
    omega

theorem write_lockstep (buf : Bytes) (offset : Nat) (s₁ s₂ : Scratch) :
    Tx.Lockstep (Twin n) (write_tx n buf offset s₁) (write_tx n buf offset s₂) := by
  have hmod := Nat.mod_lt offset SLICE_SIZE_pos
  have hfuel := Nat.lt_succ_self buf.length
  refine .bind (Twin.get_bucket n) fun _ => .bind (Twin.read_usize n _) fun size =>
    .bind (Twin.slice_work (write_loop_work _ _ s₁ hfuel hmod) (write_loop_work _ _ s₂ hfuel hmod))
      fun count => .bind (.unwrap _) fun upto => ?_
  exact .ite (.bind (Twin.put_field n .size _) fun _ => .pure count)
    (.bind (.pure ()) fun _ => .pure count)

theorem charge_lockstep (gap : Nat) : Tx.Lockstep (Twin n) (charge gap) (charge gap) :=
  .bind (.unwrap_ok Twin.get_super_blk) fun _ => .bind (Twin.sb_usize _) fun _ =>
    .bind (.ensure _ _) fun _ => Twin.sb_put _ _

theorem truncate_lockstep (ctime : DbfsTimeSpec) (f_size : UInt64) (attr : DbfsAttr) :
    Tx.Lockstep (Twin n) (truncate_tx n ctime f_size attr) (truncate_tx n ctime f_size attr) := by
  have hclear := clear_slice_work (n := n) (f_size.toNat / SLICE_SIZE)
    (Nat.mod_lt f_size.toNat SLICE_SIZE_pos)
  have hblocks : Tx.Lockstep (Twin n) (truncate_blocks n f_size.toNat attr.size)
      (truncate_blocks n f_size.toNat attr.size) := by
    refine .ite (charge_lockstep _) ?_
    exact .bind (Twin.slice_work (delete_slices_work _) (delete_slices_work _)) fun _ =>
      .bind (Twin.slice_work hclear hclear) fun _ => .bind (.unwrap_ok Twin.get_super_blk) fun _ =>
      .bind (Twin.sb_usize _) fun _ => .bind (.unwrap _) fun _ => Twin.sb_put _ _
  exact .bind (.unwrap_ok (Twin.get_bucket n)) fun _ => .bind hblocks fun _ =>
    .bind (Twin.put_field n .size _) fun _ => .bind (Twin.put_field n .ctime _) fun _ =>
    .bind (Twin.put_field n .mtime _) fun _ => .bind (Twin.put_field n .mode _) fun _ => .pure _

theorem fallocate_lockstep (r_uid r_gid : UInt32) (offset size : Nat) (mode : UInt32)
    (ctime : DbfsTimeSpec) :
    Tx.Lockstep (Twin n) (fallocate_tx r_uid r_gid n offset size mode ctime)
      (fallocate_tx r_uid r_gid n offset size mode ctime) := by
  have hsize : ∀ f_size i_size, Tx.Lockstep (Twin n) (fallocate_size n f_size i_size mode ctime)
      (fallocate_size n f_size i_size mode ctime) := fun f_size i_size =>
    .ite (.bind (Twin.put_field n .ctime _) fun _ => .bind (Twin.put_field n .mtime _) fun _ =>
      .ite (Twin.put_field n .size _) (.pure ())) (.pure ())
  refine .bind (.unwrap_ok (Twin.get_bucket n)) fun _ => .bind (Twin.read_u32 n _) fun _ =>
    .bind (Twin.read_u32 n _) fun _ => .bind (Twin.read_u16 n _) fun _ =>
    .bind (Twin.read_usize n _) fun _ => .bind (.ensure _ _) fun _ => .bind (.unwrap _) fun _ => ?_
  exact .ite (.bind (charge_lockstep _) fun _ => hsize _ _) (.bind (.pure ()) fun _ => hsize _ _)

end twin

end dbfs2
