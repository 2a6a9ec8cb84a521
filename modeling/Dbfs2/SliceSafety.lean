-- The slices of a file over a whole run: each is full, and none is stored behind the end of the
-- file, whatever the offsets, empty buffers and numbers cut to 32 bits. This is all that keeps the
-- walk of a read inside the buffer and the slices, and the loop of truncate inside its slice.
import Dbfs2.CopyRange
import Dbfs2.ReadLength
import Dbfs2.Serial

namespace dbfs2

open common Tx inode file

/-! ## Runs on files -/

/-- The calls on the contents of files. -/
inductive FileCall where
  | content (n : UInt64) (call : ContentCall)
  | copy_file_range (src : UInt64) (offset_src : Nat) (dest : UInt64) (offset_dest len : Nat)
      (ctime : DbfsTimeSpec)

def FileCall.run [Features] (scratch : Scratch) : FileCall → Fs Unit
  | content n call => call.run n scratch
  | copy_file_range src offset_src dest offset_dest len ctime => do
    let _ ← dbfs_common_copy_file_range src offset_src dest offset_dest len ctime scratch

/-- The state after a row of calls, each with the memory that it was given. -/
def after_file_calls [Features] (s : Sys) (calls : List (FileCall × Scratch)) : Sys :=
  calls.foldl (fun s c => (c.1.run c.2 s).2) s

section runs

variable [Features] {n m : UInt64} {db db' : Db} {s : Sys}

/-- What every call keeps of a file: full slices, of which none lies behind the end. -/
structure Bounded (db : Db) (n : UInt64) : Prop extends Regulated db n where
  size : ∃ size, db.usize n .size = some size
  none_behind : NoneBehind db n

theorem NewFile.bounded (h : NewFile db n) : Bounded db n where
  toRegulated := h.regulated
  size := ⟨0, h.size⟩
  none_behind := by
    intro i _ hi
    rw [h.get _ fun f e => field_ne_slice_key f i e.symm] at hi
    cases hi

/-- Only the keys of the file count. -/
theorem Bounded.congr (h : Bounded db n) (hhas : db'.Has n ↔ db.Has n)
    (hget : ∀ k, db'.get n k = db.get n k) : Bounded db' n := by
  have hsize : db'.usize n .size = db.usize n .size := by rw [Db.usize, Db.usize, hget]
  refine ⟨⟨hhas.mpr h.has, fun i v hv => h.sliced i v (hget _ ▸ hv),
    fun k v hv => h.keys k v (hget _ ▸ hv)⟩, hsize ▸ h.size, fun i hi hsome => ?_⟩
  rw [hsize]
  exact h.none_behind i hi (hget _ ▸ hsome)

/-- The size may grow when the slices stay. -/
theorem NoneBehind.grow {size size' : Nat} (h : NoneBehind db n)
    (hslices : db'.slices n = db.slices n) (hsize : db.usize n .size = some size)
    (hsize' : db'.usize n .size = some size') (hle : size ≤ size') : NoneBehind db' n := by
  intro i hi hsome z hz
  obtain rfl := Option.some.inj (hsize'.symm.trans hz)
  rw [← Db.slices_of_lt _ _ hi, hslices, Db.slices_of_lt _ _ hi] at hsome
  exact (h i hi hsome size hsize).trans (Nat.div_le_div_right hle)

/-- One call leaves a size that can be read, and no slice behind it. -/
theorem ContentCall.run_end {call : ContentCall} {scratch : Scratch} {s' : Sys}
    (hnone : NoneBehind s.db n) (h : call.run n scratch s = (.Ok (), s')) :
    (∃ size, s'.db.usize n .size = some size) ∧ NoneBehind s'.db n := by
  cases call with
  | write offset buf =>
    simp only [run, dbfs_common_write, Fs.bind_ok, Fs.write_ok, Fs.pure_ok] at h
    obtain ⟨_, _, ⟨db', htx, rfl⟩, _, rfl⟩ := h
    obtain ⟨_, _, _, _, _, hsize⟩ := write_tx_only htx
    exact ⟨⟨_, hsize⟩, hnone.write htx⟩
  | truncate r_uid r_gid ctime f_size =>
    simp only [run, Fs.bind_ok, Fs.pure_ok] at h
    obtain ⟨attr, _, hcall, _, rfl⟩ := h
    have hcut : NoneBehind (dbfs_common_truncate r_uid r_gid n ctime f_size s).2.db n :=
      hnone.truncate
    rw [hcall] at hcut
    simp only [dbfs_common_truncate, Fs.bind_ok, Fs.write_ok] at hcall
    obtain ⟨_, _, _, db', htx, rfl⟩ := hcall
    exact ⟨⟨_, (truncate_tx_only htx).2.1⟩, hcut⟩
  | fallocate r_uid r_gid offset len mode ctime =>
    simp only [run, dbfs_common_fallocate, Fs.write_ok] at h
    obtain ⟨db', htx, rfl⟩ := h
    obtain ⟨_, hslices, size, hsize, hnew, _⟩ := fallocate_tx_only htx
    refine ⟨⟨_, hnew⟩, hnone.grow hslices hsize hnew ?_⟩
    split_ifs <;> omega

theorem Bounded.content (h : Bounded s.db n) (call : ContentCall) (scratch : Scratch) :
    Bounded (call.run n scratch s).2.db n := by
  rcases call.run_atomic scratch s with hstay | ⟨⟨⟩, hok⟩
  · rw [hstay]
    exact h
  · obtain ⟨hsize, hnone⟩ := ContentCall.run_end h.none_behind (Prod.ext hok rfl)
    exact ⟨h.toRegulated.step call scratch, hsize, hnone⟩

omit [Features] in
theorem stamp_fileOnly (db : Db) (n : UInt64) (ctime : DbfsTimeSpec) :
    FileOnly n db (stamp db n ctime) where
  has m := by simp [stamp]
  get m k hk := by
    by_cases hm : m = n
    · simp [stamp, Db.get_put, (hk hm).1]
    · simp [stamp, Db.get_put, hm]

theorem Bounded.stamp (h : Bounded db n) (ctime : DbfsTimeSpec) :
    Bounded (stamp db n ctime) n := by
  obtain ⟨size, hsize⟩ := h.size
  have hsize' := (size_stamp db n ctime).trans hsize
  refine ⟨⟨((stamp_fileOnly db n ctime).has n).mpr h.has, ?_,
    (stamp_fileOnly db n ctime).sliceKeys h.keys⟩, ⟨size, hsize'⟩,
    h.none_behind.grow (slices_stamp db n ctime) hsize hsize' (le_refl _)⟩
  exact (h.sliced.put_field n .ctime _).put_field n .mtime _

/-- A copy changes nothing, or it writes to the destination and notes the time. -/
theorem copy_state {src dest : UInt64} {offset_src offset_dest len : Nat} {ctime : DbfsTimeSpec}
    {scratch : Scratch} :
    (dbfs_common_copy_file_range src offset_src dest offset_dest len ctime scratch s).2 = s ∨
      ∃ buf, ((ContentCall.write offset_dest buf).run dest scratch s).1 = .Ok () ∧
        (dbfs_common_copy_file_range src offset_src dest offset_dest len ctime scratch s).2.db =
          dbfs2.stamp ((ContentCall.write offset_dest buf).run dest scratch s).2.db dest ctime := by
  unfold dbfs_common_copy_file_range dbfs_common_read dbfs_common_write
  rw [Fs.bind_read]
  generalize (get_bucket src >>= fun _ => read_usize src .size) s.db = first
  rcases first with ⟨size, _⟩ | e | _
  · simp only [Fs.bind_read]
    rcases read_tx src (List.replicate (min (size - offset_src) len) 0) offset_src s.db with
      ⟨⟨c, buf⟩, _⟩ | e | _
    · simp only [Fs.bind_write]
      rcases hwrite : write_tx dest (buf.take c) offset_dest scratch s.db with ⟨w, db₁⟩ | e | _
      · have hrun : (ContentCall.write offset_dest (buf.take c)).run dest scratch s =
            (.Ok (), { s with db := db₁ }) := by
          rw [ContentCall.run, dbfs_common_write, Fs.bind_write, hwrite]
          rfl
        obtain ⟨honly, _, _, _, hdest, _⟩ := write_tx_only hwrite
        refine .inr ⟨buf.take c, by rw [hrun], ?_⟩
        simp only
        rw [stamp_ok (u := ()).mpr ⟨(honly.has dest).mpr (Db.has_of_usize hdest), rfl⟩, hrun]
        rfl
      · exact .inl rfl
      · exact .inl rfl
    · exact .inl rfl
    · exact .inl rfl
  · exact .inl rfl
  · exact .inl rfl

theorem FileCall.run_bounded (h : Bounded s.db n) (call : FileCall) (scratch : Scratch) :
    Bounded (call.run scratch s).2.db n := by
  have hcontent : ∀ m (call : ContentCall), Bounded (call.run m scratch s).2.db n := by
    intro m call
    by_cases hm : n = m
    · subst hm
      exact h.content call scratch
    · rcases call.run_atomic scratch s with hstay | ⟨⟨⟩, hok⟩
      · rw [hstay]
        exact h
      · have honly := ContentCall.run_fileOnly (Prod.ext hok rfl)
        exact h.congr (honly.has n) fun k => honly.get n k fun e => absurd e hm
  cases call with
  | content m call => exact hcontent m call
  | copy_file_range src offset_src dest offset_dest len ctime =>
    rw [run, Fs.discard_state]
    rcases copy_state with hstay | ⟨buf, _, hdb⟩
    · rw [hstay]
      exact h
    · rw [hdb]
      have hwrote := hcontent dest (.write offset_dest buf)
      by_cases hm : n = dest
      · subst hm
        exact hwrote.stamp ctime
      · have honly := stamp_fileOnly ((ContentCall.write offset_dest buf).run dest scratch s).2.db
          dest ctime
        exact hwrote.congr (honly.has n) fun k => honly.get n k fun e => absurd e hm

theorem Bounded.run (h : Bounded s.db n) (calls : List (FileCall × Scratch)) :
    Bounded (after_file_calls s calls).db n := by
  induction calls generalizing s with
  | nil => exact h
  | cons c calls ih => exact ih (FileCall.run_bounded h c.1 c.2)

end runs

/-! ## The walk of a read -/

section walk

variable [Features] {size offset : Nat} {st : Bytes × Nat}

/-- The state of a walk: the buffer keeps its length, and is filled up to a place inside it. -/
def InBuffer (len : Nat) (st : Bytes × Nat) : Prop := st.1.length = len ∧ st.2 ≤ len

/-- A full slice that begins in the file is copied inside the buffer. -/
theorem read_piece_safe {i len : Nat} {value : Bytes} (hoff : offset < SLICE_SIZE)
    (hi : i * SLICE_SIZE ≤ size) (hvalue : value.length = SLICE_SIZE) (hst : InBuffer len st) :
    ∃ st', read_piece size offset i value st = some st' ∧ InBuffer len st' := by
  obtain ⟨buf, count⟩ := st
  obtain ⟨rfl, hcount⟩ : buf.length = len ∧ count ≤ len := hst
  have hlen : min (buf.length - count)
      (min (size - i * SLICE_SIZE) SLICE_SIZE - (offset - i * SLICE_SIZE)) ≤ buf.length - count :=
    Nat.min_le_left ..
  have hinside : offset - i * SLICE_SIZE + min (buf.length - count)
      (min (size - i * SLICE_SIZE) SLICE_SIZE - (offset - i * SLICE_SIZE)) ≤ value.length := by
    omega
  simp only [read_piece, hi, hcount, and_self, if_true, copy_from_slice]
  rw [if_pos ⟨by omega, hinside⟩, Option.map_some]
  refine ⟨_, rfl, Slices.length_overlay_of_fits ?_, by simp only; omega⟩
  rw [List.length_take, List.length_drop]
  omega

theorem read_holes_safe (first : Nat) {last len : Nat} (hoff : offset < SLICE_SIZE)
    (hlast : last * SLICE_SIZE ≤ size) (hst : InBuffer len st) :
    ∃ st', read_holes size offset first last st = some st' ∧ InBuffer len st' := by
  unfold read_holes
  have hmem : ∀ i ∈ List.range' first (last - first), i * SLICE_SIZE ≤ size := fun i hi => by
    rw [List.mem_range'_1] at hi
    exact (Nat.mul_le_mul_right _ (by omega)).trans hlast
  generalize List.range' first (last - first) = is at hmem ⊢
  induction is generalizing st with
  | nil => exact ⟨st, rfl, hst⟩
  | cons i is ih =>
    obtain ⟨st₁, hpiece, hst₁⟩ := read_piece_safe hoff (hmem i List.mem_cons_self)
      List.length_replicate hst
    rw [List.foldlM_cons, hpiece]
    exact ih hst₁ (fun j hj => hmem j (List.mem_cons_of_mem _ hj))

/-- The walk over full slices that begin in the file, from any number on. -/
theorem read_loop_safe {data : List (Bytes × Bytes)} {len : Nat} (hoff : offset < SLICE_SIZE)
    (hdata : ∀ kv ∈ data, ∃ i < 2 ^ 32, kv.1 = slice_key i ∧ i * SLICE_SIZE ≤ size ∧
      kv.2.length = SLICE_SIZE) (start_num : Nat) (hst : InBuffer len st) :
    ∃ st', read_loop size offset data start_num st = some st' ∧ InBuffer len st' := by
  induction data generalizing start_num st with
  | nil => exact ⟨st, rfl, hst⟩
  | cons kv data ih =>
    obtain ⟨key, value⟩ := kv
    obtain ⟨i, hi, rfl, hsize, hvalue⟩ := hdata _ List.mem_cons_self
    obtain ⟨index, hindex, htoNat⟩ := Option.map_eq_some_iff.mp (slice_key_number hi)
    have hrest : ∀ next st₁, InBuffer len st₁ → ∃ st',
        ((read_piece size offset i value st₁).bind fun st =>
          if st.2 = st.1.length then some st else read_loop size offset data next st) = some st' ∧
        InBuffer len st' := by
      intro next st₁ hst₁
      obtain ⟨st₂, hpiece, hst₂⟩ := read_piece_safe hoff hsize hvalue hst₁
      rw [hpiece, Option.bind_some]
      split_ifs
      · exact ⟨st₂, rfl, hst₂⟩
      · exact ih (fun kv hkv => hdata kv (List.mem_cons_of_mem _ hkv)) next hst₂
    rw [read_loop, hindex]
    simp only [Option.bind_eq_bind, Option.bind_some, htoNat]
    by_cases hnext : i = start_num
    · rw [if_neg (not_not.mpr hnext)]
      exact hrest (start_num + 1) st hst
    · -- the slices before this one are not stored
      obtain ⟨st₁, hholes, hst₁⟩ := read_holes_safe (start_num % 2 ^ 32) hoff hsize hst
      rw [if_pos hnext, hholes]
      exact hrest (i + 1 + 1) st₁ hst₁

end walk

/-! ## Safe files -/

/-- What holds of a file between calls. A read of any offset into any buffer walks any range of its
slices without leaving the buffer or a slice, and a cut clears any slice from any place on. -/
structure SliceSafe [Features] (s : Sys) (n : UInt64) (size : Nat) : Prop where
  size_eq : s.db.usize n .size = some size
  whole (i : Nat) (v : Bytes) : s.db.get n (slice_key i) = some v → v.length = SLICE_SIZE
  bound (i : Nat) : i < 2 ^ 32 → (s.db.get n (slice_key i)).isSome → i * SLICE_SIZE ≤ size
  walk (first last offset : Nat) (buf : Bytes) :
    ∃ data b c, range n (slice_key first) (slice_key last) s.db = .Ok (data, s.db) ∧
      read_loop size (offset % SLICE_SIZE) data (offset / SLICE_SIZE) (buf, 0) = some (b, c) ∧
      b.length = buf.length ∧ c ≤ buf.length
  read (buf : Bytes) (offset : Nat) :
    (∃ c b, dbfs_common_read n buf offset s = (.Ok (c, b), s) ∧ c ≤ buf.length) ∨
      dbfs_common_read n buf offset s = (.Panic, s) ∧ 2 ^ 64 ≤ offset + buf.length
  clear (is : List Nat) (num f_size : Nat) : ∃ db₁ db₂, delete_slices n is s.db = .Ok ((), db₁) ∧
    clear_slice n num (f_size % SLICE_SIZE) db₁ = .Ok ((), db₂)

section safe

variable [Features] {n : UInt64} {db : Db} {s : Sys} {size : Nat}

theorem Bounded.begins (h : Bounded db n) (hsize : db.usize n .size = some size) {i : Nat}
    (hi : i < 2 ^ 32) (hsome : (db.get n (slice_key i)).isSome) : i * SLICE_SIZE ≤ size :=
  (Nat.le_div_iff_mul_le SLICE_SIZE_pos).mp (h.none_behind i hi hsome size hsize)

theorem Bounded.walk (h : Bounded db n) (hsize : db.usize n .size = some size)
    (first last offset : Nat) (buf : Bytes) :
    ∃ data b c, range n (slice_key first) (slice_key last) db = .Ok (data, db) ∧
      read_loop size (offset % SLICE_SIZE) data (offset / SLICE_SIZE) (buf, 0) = some (b, c) ∧
      b.length = buf.length ∧ c ≤ buf.length := by
  obtain ⟨bucket, hb⟩ := Store.has_iff.mp h.has
  have hdata : ∀ kv ∈ bucket.range (slice_key first) (slice_key last), ∃ i < 2 ^ 32,
      kv.1 = slice_key i ∧ i * SLICE_SIZE ≤ size ∧ kv.2.length = SLICE_SIZE := by
    rintro ⟨k, v⟩ hkv
    obtain ⟨hv, h1, h2⟩ := OrdMap.mem_range.mp hkv
    have hget : db.get n k = some v := Store.get_eq_some.mpr ⟨bucket, hb, hv⟩
    obtain ⟨i, hi, rfl⟩ := h.keys k v hget (prefix_of_between h1 h2)
    exact ⟨i, hi, rfl, h.begins hsize hi (hget ▸ rfl), h.sliced i v hget⟩
  have hempty : InBuffer buf.length (buf, 0) := ⟨rfl, Nat.zero_le _⟩
  obtain ⟨⟨b, c⟩, hloop, hlen, hc⟩ := read_loop_safe (Nat.mod_lt offset SLICE_SIZE_pos) hdata
    (offset / SLICE_SIZE) hempty
  refine ⟨_, b, c, ?_, hloop, hlen, hc⟩
  rw [range, hb]
  rfl

theorem Bounded.read (h : Bounded s.db n) (hsize : s.db.usize n .size = some size) (buf : Bytes)
    (offset : Nat) :
    (∃ c b, dbfs_common_read n buf offset s = (.Ok (c, b), s) ∧ c ≤ buf.length) ∨
      dbfs_common_read n buf offset s = (.Panic, s) ∧ 2 ^ 64 ≤ offset + buf.length := by
  by_cases hpast : size ≤ offset
  · refine .inl ⟨0, buf, ?_, Nat.zero_le _⟩
    rw [dbfs_common_read, Fs.read, read_past hsize buf hpast]
  · rw [dbfs_common_read, Fs.read]
    rcases Nat.lt_or_ge (offset + buf.length) (2 ^ 64) with hlt | hge
    · obtain ⟨data, b, c, hrange, hloop, _, hc⟩ := h.walk hsize (offset / SLICE_SIZE)
        (min ((offset + buf.length) / SLICE_SIZE + 1) (size / SLICE_SIZE + 1)) offset buf
      refine .inl ⟨c, b, ?_, hc⟩
      rw [read_within hsize (not_le.mp hpast) hlt, bind_of_ok hrange,
        bind_of_ok (unwrap_ok_iff.mpr ⟨hloop, rfl⟩)]
      rfl
    · refine .inr ⟨?_, hge⟩
      rw [read_beyond hsize (not_le.mp hpast) hge]

end safe

/-- A new file is safe after every run of calls on any files. -/
theorem new_files_stay_safe [Features] (s : Sys) (n : UInt64) (hnew : NewFile s.db n)
    (calls : List (FileCall × Scratch)) : ∃ size, SliceSafe (after_file_calls s calls) n size := by
  have h := hnew.bounded.run calls
  obtain ⟨size, hsize⟩ := h.size
  refine ⟨size, hsize, h.sliced, fun i hi => h.begins hsize hi, h.walk hsize, h.read hsize,
    fun is num f_size => ?_⟩
  obtain ⟨db₁, hdelete, honly, hsliced⟩ := delete_slices_work is _ h.has h.sliced
  obtain ⟨db₂, hclear, _⟩ := clear_slice_work num (Nat.mod_lt f_size SLICE_SIZE_pos) db₁
    ((honly.has n).mpr h.has) hsliced
  exact ⟨db₁, db₂, hdelete, hclear⟩

section sample

attribute [local instance] sli512_features

/-- An empty write far behind the end, whose slice number is cut to 0, a copy of the file over
itself, and a cut. -/
def far_and_back : List (FileCall × Scratch) :=
  [(.content 2 (.write (2 ^ 32 * 512) []), filled_with 7),
    (.copy_file_range 2 0 2 1 5 .default, filled_with 8),
    (.content 2 (.truncate 0 0 .default 3), filled_with 9)]

theorem far_and_back_safe :
    ∃ size, SliceSafe (after_file_calls with_new_file.2 far_and_back) 2 size :=
  new_files_stay_safe with_new_file.2 2 (create_new_file (by decide) with_new_file_eq) far_and_back

end sample

end dbfs2
