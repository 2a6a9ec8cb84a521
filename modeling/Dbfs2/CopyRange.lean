-- Copying a range of a file: a read into a buffer of the right size, and a write of
-- what was read. A copy of nothing still writes: it stores the slice of its offset
-- and moves the end of the file there.
import Dbfs2.Scratch

namespace dbfs2

open common Tx inode file

section copy

variable [Features] {db : Db} {src dest : UInt64} {size : Nat} {s s' : Sys}

/-! ## The read and the write of a copy -/

/-- A read at the start of a slice gives the bytes of the file from there on. -/
theorem Dense.read_aligned (h : Dense db src size) (buf : Bytes) (hbuf : buf.length < 2 ^ 63)
    {offset : Nat} (halign : offset % SLICE_SIZE = 0) :
    ∃ b, read_tx src buf offset db = .Ok ((min buf.length (size - offset), b), db) ∧
      Filled (db.slices src) offset buf (b, min buf.length (size - offset)) := by
  rcases Nat.lt_or_ge offset size with hlt | hge
  · have hfrom : read_from offset = offset := by
      rw [read_from_eq, halign]
      exact ite_self offset
    have hread := h.read buf hbuf hlt
    rwa [hfrom] at hread
  · refine ⟨buf, ?_, rfl, by simp, by simp [Nat.sub_eq_zero_of_le hge]⟩
    rw [read_past h.size_eq buf hge, Nat.sub_eq_zero_of_le hge, Nat.min_zero]

/-- The number of bytes that there are to copy. -/
def copy_size (src_size offset_src len : Nat) : Nat := min (src_size - offset_src) len

/-- The time of the copy is noted. -/
def stamp (db : Db) (n : UInt64) (ctime : DbfsTimeSpec) : Db :=
  (db.put n Field.ctime.key ctime.to_be_bytes).put n Field.mtime.key ctime.to_be_bytes

omit [Features] in
theorem slices_stamp (db : Db) (n : UInt64) (ctime : DbfsTimeSpec) :
    (stamp db n ctime).slices n = db.slices n := by
  apply slices_congr
  simp [stamp, Ne.symm (field_ne_slice_key _ _)]

omit [Features] in
theorem size_stamp (db : Db) (n : UInt64) (ctime : DbfsTimeSpec) :
    (stamp db n ctime).usize n .size = db.usize n .size := by
  simp [stamp]

omit [Features] in
theorem stamp_ok {n : UInt64} {ctime : DbfsTimeSpec} {u : Unit} {db' : Db} :
    (do
      get_bucket n
      put n Field.ctime.key ctime.to_be_bytes
      put n Field.mtime.key ctime.to_be_bytes : Tx Unit) db = .Ok (u, db') ↔
      db.Has n ∧ db' = stamp db n ctime := by
  simp only [bind_ok, get_bucket_ok, put_ok]
  constructor
  · rintro ⟨_, _, ⟨hn, rfl⟩, _, _, ⟨_, rfl⟩, _, rfl⟩
    exact ⟨hn, rfl⟩
  · rintro ⟨hn, rfl⟩
    exact ⟨(), db, ⟨hn, rfl⟩, (), _, ⟨hn, rfl⟩, (Db.has_put _ _ _ _ _).mpr hn, rfl⟩

/-- Once the read is known a copy is a write, and a note of the time. -/
theorem copy_file_range_ok {offset_src offset_dest len c : Nat} {ctime : DbfsTimeSpec}
    {scratch : Scratch} {b : Bytes} (hsize : s.db.usize src .size = some size)
    (hread : read_tx src (List.replicate (copy_size size offset_src len) 0) offset_src s.db =
      .Ok ((copy_size size offset_src len, b), s.db)) :
    dbfs_common_copy_file_range src offset_src dest offset_dest len ctime scratch s =
        (.Ok c, s') ↔
      ∃ db₁, write_tx dest (b.take (copy_size size offset_src len)) offset_dest scratch s.db =
          .Ok (c, db₁) ∧
        s' = { s with db := stamp db₁ dest ctime } := by
  have hsrc := Db.has_of_usize hsize
  unfold copy_size at hread ⊢
  simp only [dbfs_common_copy_file_range, dbfs_common_read, dbfs_common_write, Fs.bind_ok,
    Fs.read_ok, Fs.write_ok, Fs.pure_ok, stamp_ok]
  constructor
  · rintro ⟨_, _, ⟨⟨_, hsize'⟩, rfl⟩, ⟨_, _⟩, _, ⟨⟨_, hread'⟩, rfl⟩, _, _, ⟨db₁, hwrite, rfl⟩, _, _,
      ⟨_, ⟨_, rfl⟩, rfl⟩, rfl, rfl⟩
    simp at hsize'
    obtain ⟨⟨_, rfl⟩, hsize'⟩ := hsize'
    cases hsize.symm.trans hsize'
    cases hread.symm.trans hread'
    exact ⟨db₁, hwrite, rfl⟩
  · rintro ⟨db₁, hwrite, rfl⟩
    have hdest : db₁.Has dest := by
      obtain ⟨honly, _, _, _, hdest, _⟩ := write_tx_only hwrite
      exact (honly.has dest).mpr (Db.has_of_usize hdest)
    exact ⟨size, s, ⟨⟨s.db, by simp [hsrc, hsize]⟩, rfl⟩, _, s, ⟨⟨s.db, hread⟩, rfl⟩, c, _,
      ⟨db₁, hwrite, rfl⟩, (), _, ⟨_, ⟨hdest, rfl⟩, rfl⟩, rfl, rfl⟩

/-! ## Copies that do what they say -/

/-- The copy returns the number of bytes that there are to copy, `count`. They stand in the
destination as they stood in the source, and the file ends behind them if it ended before. A copy
of nothing changes neither the size nor a slice. -/
def CopiesRange (src : UInt64) (offset_src : Nat) (dest : UInt64) (offset_dest len : Nat)
    (ctime : DbfsTimeSpec) (scratch : Scratch) (s : Sys) (count dest_size : Nat) : Prop :=
  ∃ s', dbfs_common_copy_file_range src offset_src dest offset_dest len ctime scratch s =
      (.Ok count, s') ∧
    (∀ i < count, Slices.get SLICE_SIZE (s'.db.slices dest) (offset_dest + i) =
      Slices.get SLICE_SIZE (s.db.slices src) (offset_src + i)) ∧
    s'.db.usize dest .size =
      some (if 0 < count then max dest_size (offset_dest + count) else dest_size) ∧
    (count = 0 → s'.db.slices dest = s.db.slices dest)

/-- A copy does what it says exactly when there is something to copy, or when its offset is not
behind the end and the slice there is stored. -/
theorem copies_range_iff (src : UInt64) (offset_src : Nat) (dest : UInt64)
    (offset_dest len : Nat) (ctime : DbfsTimeSpec) (scratch : Scratch) (s : Sys)
    (src_size dest_size : Nat) (hsrc : Dense s.db src src_size)
    (hdest : s.db.usize dest .size = some dest_size) (hsliced : s.db.Sliced dest)
    (hbound : dest_size < (2 ^ 32 - 1) * SLICE_SIZE) (halign : offset_src % SLICE_SIZE = 0)
    (hoff : offset_dest < 2 ^ 64)
    (hfits : 0 < copy_size src_size offset_src len →
      offset_dest + copy_size src_size offset_src len < (2 ^ 32 - 1) * SLICE_SIZE) :
    CopiesRange src offset_src dest offset_dest len ctime scratch s
        (copy_size src_size offset_src len) dest_size ↔
      0 < copy_size src_size offset_src len ∨
        offset_dest ≤ dest_size ∧ (s.db.slices dest (offset_dest / SLICE_SIZE)).isSome := by
  have hS := SLICE_SIZE_pos
  have hwhole := whole_slices.mpr hsliced
  have hle := SLICE_SIZE_le
  have hcount : copy_size src_size offset_src len ≤ src_size - offset_src := Nat.min_le_left ..
  have hsize := hsrc.bound
  obtain ⟨b, hread, hfilled⟩ := hsrc.read_aligned
    (List.replicate (copy_size src_size offset_src len) 0)
    (by rw [List.length_replicate]; omega) halign
  rw [List.length_replicate, Nat.min_eq_left hcount] at hread hfilled
  unfold CopiesRange
  simp only [copy_file_range_ok hsrc.size_eq hread]
  generalize copy_size src_size offset_src len = count at *
  have hlen : (b.take count).length = count := by
    have hb : b.length = (List.replicate count (0 : UInt8)).length := hfilled.length
    rw [List.length_take, hb, List.length_replicate, Nat.min_self]
  have hnothing : offset_dest ≤ dest_size → ∃ db₁,
      write_tx dest [] offset_dest scratch s.db = .Ok (0, db₁) ∧ db₁.slices dest =
        Slices.write SLICE_SIZE offset_dest [] scratch.slice (s.db.slices dest) := fun hend =>
    write_tx_spec hdest hwhole (by
      rw [List.length_nil]
      omega)
  rcases Nat.eq_zero_or_pos count with rfl | hpos
  · -- one slice is written all the same
    rw [List.take_zero]
    simp only [lt_irrefl, if_false, false_or, true_imp_iff, Nat.not_lt_zero, false_imp_iff,
      implies_true, true_and]
    constructor
    · rintro ⟨s', ⟨db₁, hwrite, rfl⟩, hnew, hslices⟩
      rw [size_stamp] at hnew
      rw [slices_stamp] at hslices
      obtain ⟨_, _, _, _, hdest', hnew'⟩ := write_tx_only hwrite
      cases hdest.symm.trans hdest'
      have heq := Option.some.inj (hnew.symm.trans hnew')
      simp only [List.length_nil, Nat.add_zero] at heq
      have hend : offset_dest ≤ dest_size := by omega
      refine ⟨hend, ?_⟩
      obtain ⟨db₂, hwrite', hslices'⟩ := hnothing hend
      cases hwrite.symm.trans hwrite'
      rw [hslices'] at hslices
      exact (Slices.write_nil_eq_iff hS).mp hslices
    · rintro ⟨hend, hsome⟩
      obtain ⟨db₁, hwrite, hslices⟩ := hnothing hend
      obtain ⟨_, _, _, _, hdest', hnew⟩ := write_tx_only hwrite
      cases hdest.symm.trans hdest'
      rw [List.length_nil, Nat.add_zero, Nat.max_eq_left hend] at hnew
      refine ⟨_, ⟨db₁, hwrite, rfl⟩, ?_, ?_⟩
      · rw [size_stamp, hnew]
      · rw [slices_stamp, hslices, (Slices.write_nil_eq_iff hS).mpr hsome]
  · refine iff_of_true ?_ (.inl hpos)
    obtain ⟨db₁, hwrite, hslices⟩ := write_tx_spec (s := scratch) hdest hwhole
      (show offset_dest + max 1 (b.take count).length ≤ 2 ^ 32 * SLICE_SIZE by
        have := hfits hpos
        omega)
    obtain ⟨_, _, _, _, hdest', hnew⟩ := write_tx_only hwrite
    cases hdest.symm.trans hdest'
    rw [hlen] at hwrite hnew
    refine ⟨_, ⟨db₁, hwrite, rfl⟩, fun i hi => ?_, ?_, fun hzero => ?_⟩
    · rw [slices_stamp, hslices, Slices.get_write hS hwhole scratch.length_slice, hlen,
        if_pos ⟨Nat.le_add_right .., by omega⟩, Nat.add_sub_cancel_left, hfilled.getElem?_take,
        if_pos hi]
    · rw [size_stamp, hnew, if_pos hpos]
    · omega

end copy

/-! ## A copy of nothing behind the end -/

section sample

attribute [local instance] sli512_features

/-- A new file, after five bytes of it were to be copied to its own offset 1. -/
def copied_nothing : DbfsResult Nat × Sys :=
  dbfs_common_copy_file_range 2 0 2 1 5 .default (filled_with 7) with_new_file.2

theorem copy_of_nothing_grows :
    Dense with_new_file.2.db 2 0 ∧ copied_nothing.1 = .Ok 0 ∧
      copied_nothing.2.db.usize 2 .size = some 1 ∧
      with_new_file.2.db.slices 2 0 = none ∧
      copied_nothing.2.db.slices 2 0 = some (List.replicate 512 7) ∧
      ¬ CopiesRange 2 0 2 1 5 .default (filled_with 7) with_new_file.2 0 0 := by
  have hnew : NewFile with_new_file.2.db 2 := create_new_file (by decide) with_new_file_eq
  have hsize : copied_nothing.2.db.usize 2 .size = some 1 := by decide +kernel
  refine ⟨hnew.holds.dense, by decide +kernel, hsize, by decide +kernel, by decide +kernel, ?_⟩
  rintro ⟨s', hcopy, _, hsize', _⟩
  change copied_nothing = (.Ok 0, s') at hcopy
  rw [hcopy] at hsize
  cases hsize.symm.trans hsize'

/-- Three bytes of a file are copied behind themselves. -/
theorem three_bytes_copied :
    CopiesRange 2 0 2 3 5 .default (filled_with 7)
      (after_run 2 with_new_file.2 [(.write 0 [1, 2, 3], filled_with 0)]) 3 3 := by
  have hnew : NewFile with_new_file.2.db 2 := create_new_file (by decide) with_new_file_eq
  obtain ⟨db, hwrite, hholds⟩ : ∃ db, write_tx 2 [1, 2, 3] 0 (filled_with 0) with_new_file.2.db =
      .Ok (3, db) ∧ Holds db 2 [1, 2, 3] :=
    hnew.holds.write (filled_with 0) (by decide) (by decide) (by decide)
  have hstate : after_run 2 with_new_file.2 [(.write 0 [1, 2, 3], filled_with 0)] =
      { with_new_file.2 with db := db } := by
    change ((ContentCall.write 0 [1, 2, 3]).run 2 (filled_with 0) with_new_file.2).2 = _
    rw [ContentCall.run, Fs.discard_state, dbfs_common_write, Fs.write, hwrite]
  rw [hstate]
  exact (copies_range_iff 2 0 2 3 5 .default (filled_with 7) { with_new_file.2 with db := db } 3 3
    hholds.dense hholds.dense.size_eq (whole_slices.mp hholds.whole) (by decide) (by decide)
    (by decide) (fun _ => by decide)).mpr (.inl (by decide))

end sample

end dbfs2
