-- What the calls on file contents do to the size, the slices and the free space of
-- the disk: one lemma per transaction, in terms of the slices as a function.
import Dbfs2.InodeSpec
import Dbfs2.File

namespace dbfs2

open common Tx inode file

/-! ## The slices of a file -/

theorem slice_key_inj {i j : Nat} (hi : i < 2 ^ 32) (hj : j < 2 ^ 32)
    (h : slice_key i = slice_key j) :
    i = j := by
  have h := congrArg UInt32.toNat (generate_data_key_with_number_inj.mp h)
  rw [UInt32.toNat_ofNat', UInt32.toNat_ofNat', Nat.mod_eq_of_lt hi, Nat.mod_eq_of_lt hj] at h
  exact h

theorem slice_key_small (i : Nat) : ∃ j < 2 ^ 32, slice_key i = slice_key j := by
  refine ⟨i % 2 ^ 32, Nat.mod_lt _ (by decide), ?_⟩
  rw [slice_key, slice_key, UInt32.ofNat_mod_size]

@[simp]
theorem field_ne_slice_key (f : Field) (i : Nat) : f.key ≠ slice_key i := field_ne_number _ _

/-- The stored slices of inode `n`, by their numbers. -/
def Db.slices (db : Db) (n : UInt64) (i : Nat) : Option Bytes :=
  if i < 2 ^ 32 then db.get n (slice_key i) else none

theorem Db.slices_of_lt (db : Db) (n : UInt64) {i : Nat} (h : i < 2 ^ 32) :
    db.slices n i = db.get n (slice_key i) := if_pos h

/-- The slices depend on what stands under their keys only. -/
theorem slices_congr {db db' : Db} {n : UInt64}
    (h : ∀ i, db'.get n (slice_key i) = db.get n (slice_key i)) :
    db'.slices n = db.slices n := by
  funext i
  simp only [Db.slices, h]

theorem slices_put {db : Db} {n : UInt64} {i : Nat} (v : Bytes) (hn : db.Has n) (hi : i < 2 ^ 32) :
    (db.put n (slice_key i) v).slices n = Function.update (db.slices n) i (some v) := by
  funext j
  by_cases hj : j < 2 ^ 32
  · rw [Db.slices_of_lt _ _ hj, Db.get_put]
    by_cases hji : j = i
    · subst hji
      simp [hn]
    · have hne : slice_key j ≠ slice_key i := fun e => hji (slice_key_inj hj hi e)
      rw [if_neg (fun e => hne e.2.1), Function.update_of_ne hji, Db.slices_of_lt _ _ hj]
  · have hji : j ≠ i := by omega
    rw [Function.update_of_ne hji]
    simp only [Db.slices, if_neg hj]

/-- Slices have their full size when every value under a slice key has it. -/
theorem whole_slices {S : Nat} {db : Db} {n : UInt64} : Slices.Whole S (db.slices n) ↔
    ∀ i v, db.get n (slice_key i) = some v → v.length = S := by
  constructor
  · intro h i v hv
    obtain ⟨j, hj, hkey⟩ := slice_key_small i
    rw [hkey, ← Db.slices_of_lt _ _ hj] at hv
    exact h j v hv
  · intro h i v hv
    unfold Db.slices at hv
    split_ifs at hv
    exact h i v hv

/-- One database is another but for some slices of inode `n`. -/
structure SlicesOnly (n : UInt64) (db db' : Db) : Prop where
  has (m : UInt64) : db'.Has m ↔ db.Has m
  get (m : UInt64) (k : Bytes) : (m = n → ∀ i, k ≠ slice_key i) → db'.get m k = db.get m k
  super_blk : db'.super_blk = db.super_blk

theorem SlicesOnly.refl (n : UInt64) (db : Db) : SlicesOnly n db db :=
  ⟨fun _ => Iff.rfl, fun _ _ _ => rfl, rfl⟩

theorem SlicesOnly.trans {n : UInt64} {db db₁ db₂ : Db} (h : SlicesOnly n db db₁)
    (h' : SlicesOnly n db₁ db₂) : SlicesOnly n db db₂ :=
  ⟨fun m => (h'.has m).trans (h.has m), fun m k hk => (h'.get m k hk).trans (h.get m k hk),
    h'.super_blk.trans h.super_blk⟩

theorem SlicesOnly.symm {n : UInt64} {db db' : Db} (h : SlicesOnly n db db') :
    SlicesOnly n db' db :=
  ⟨fun m => (h.has m).symm, fun m k hk => (h.get m k hk).symm, h.super_blk.symm⟩

theorem slicesOnly_put (db : Db) (n : UInt64) (i : Nat) (v : Bytes) :
    SlicesOnly n db (db.put n (slice_key i) v) where
  has m := Db.has_put _ _ _ _ _
  get m k hk := by
    rw [Db.get_put, if_neg]
    rintro ⟨rfl, rfl, _⟩
    exact hk rfl i rfl
  super_blk := rfl

theorem slicesOnly_delete (db : Db) (n : UInt64) (i : Nat) :
    SlicesOnly n db (db.delete n (slice_key i)) where
  has m := Db.has_delete _ _ _ _
  get m k hk := by
    rw [Db.get_delete, if_neg]
    rintro ⟨rfl, rfl⟩
    exact hk rfl i rfl
  super_blk := rfl

theorem SlicesOnly.field {n : UInt64} {db db' : Db} (h : SlicesOnly n db db') (m : UInt64)
    (f : Field) : db'.get m f.key = db.get m f.key := h.get m _ fun _ i => field_ne_slice_key f i

theorem SlicesOnly.usize {n : UInt64} {db db' : Db} (h : SlicesOnly n db db') (m : UInt64)
    (f : Field) : db'.usize m f = db.usize m f := by
  rw [Db.usize, Db.usize, h.field]

/-! ## A new file -/

/-- A regular file that nobody has written to: it has no keys but fields, and its size is 0. -/
structure NewFile (db : Db) (n : UInt64) : Prop where
  size : db.usize n .size = some 0
  get (k : Bytes) : (∀ f : Field, k ≠ f.key) → db.get n k = none

theorem NewFile.slices {db : Db} {n : UInt64} (h : NewFile db n) : db.slices n = fun _ => none := by
  funext i
  unfold Db.slices
  rw [h.get (slice_key i) fun f e => field_ne_slice_key f i e.symm]
  exact ite_self none

/-- Create makes a new file under the number that it returns. -/
theorem create_new_file [Features] {dir : UInt64} {name : String} {uid gid : UInt32}
    {t : DbfsTimeSpec} {permission : DbfsPermission} {target_path : Option String}
    {dev : Option UInt32} {s s' : Sys} {attr : DbfsAttr}
    (hty : permission &&& DbfsPermission.S_IFMT = DbfsPermission.S_IFREG)
    (h : dbfs_common_create dir name uid gid t permission target_path dev s = (.Ok attr, s')) :
    NewFile s'.db attr.ino := by
  obtain ⟨hino, r, htx⟩ := create_spec h
  obtain ⟨_, _, _, _, counts, _, _, _, hnew⟩ := create_tx_spec htx
  obtain ⟨_, hcounts, _, _, _, hsize, _, hget⟩ := new_inode_tx_spec hnew
  have hty' : permission &&& DbfsPermission.S_IFMT = DbfsFileType.RegularFile.bits := hty
  have hdots : new_dots permission s.DBFS_INODE_NUMBER dir = [] := by
    unfold new_dots
    rw [if_neg]
    rw [contains_dir_bit hty']
    decide
  rw [hino]
  constructor
  · rw [hsize, (new_counts_of_type hty' hcounts).2.2 rfl]
    exact usize_be (by decide)
  · intro k hk
    rw [hget k hk, hdots]
    simp

/-! ## Writing -/

section write

variable [Features] {n : UInt64} {s : Scratch} {db db' : Db}

/-- Memory full of one byte. -/
def filled_with (x : UInt8) : Scratch := ⟨fun _ => List.replicate SLICE_SIZE x, fun _ => by simp⟩

/-- All three ways to make a slice lay the chunk over what was there, or over the scratch. -/
theorem write_data_eq {kv : Option Bytes} {base chunk : Bytes} {offset : Nat}
    (hkv : ∀ v, kv = some v → v.length = SLICE_SIZE) (hs : base.length = SLICE_SIZE)
    (hfit : offset + chunk.length ≤ SLICE_SIZE) :
    write_data kv base offset chunk = some (Slices.overlay (kv.getD base) offset chunk) := by
  unfold write_data
  split_ifs with hfull
  · rw [hfull.2, Slices.overlay_full]
    rcases kv with _ | v
    · simp [hs, hfull.1]
    · simp [hkv v rfl, hfull.1]
  · rcases kv with _ | v
    · rfl
    · have hv := hkv v rfl
      simp only [hv, le_refl, if_true, Option.getD_some, Slices.overlay]
      congr 2
      rw [List.take_of_length_le]
      rw [List.length_drop]
      omega

/-- Whatever it was given, the loop changes nothing but slices. -/
theorem write_loop_only {fuel num offset count c : Nat} {rest : Bytes}
    (h : write_loop n s fuel num offset count rest db = .Ok (c, db')) :
    SlicesOnly n db db' ∧ c = count + rest.length := by
  induction fuel generalizing num offset count rest db with
  | zero => simp [write_loop] at h
  | succ fuel ih =>
    simp [write_loop] at h
    obtain ⟨_, data, _, _, h⟩ := h
    have hput := slicesOnly_put db n num data
    rcases h with ⟨hlen, hc, hdb⟩ | ⟨hlen, h⟩
    · subst hc hdb
      refine ⟨hput, ?_⟩
      omega
    · obtain ⟨honly, hc⟩ := ih h
      refine ⟨hput.trans honly, ?_⟩
      rw [hc, List.length_drop]
      omega

/-- One turn of the loop stores one slice. -/
theorem write_loop_turn {num offset : Nat} {rest : Bytes} (fuel count : Nat)
    (hoff : offset < SLICE_SIZE) (hn : db.Has n)
    (hkv : ∀ v, db.get n (slice_key num) = some v → v.length = SLICE_SIZE) :
    write_loop n s (fuel + 1) num offset count rest db =
      if rest.length ≤ SLICE_SIZE - offset then
        .Ok (count + rest.length, db.put n (slice_key num) (Slices.overlay
          ((db.get n (slice_key num)).getD (s.slice num)) offset (rest.take (SLICE_SIZE - offset))))
      else
        write_loop n s fuel (num + 1) 0 (count + (SLICE_SIZE - offset))
          (rest.drop (SLICE_SIZE - offset)) (db.put n (slice_key num) (Slices.overlay
            ((db.get n (slice_key num)).getD (s.slice num)) offset
              (rest.take (SLICE_SIZE - offset)))) := by
  have htake : rest.take (min rest.length (SLICE_SIZE - offset)) =
      rest.take (SLICE_SIZE - offset) := by
    rw [Nat.min_comm, ← List.take_eq_take_min]
  have hfit : offset + (rest.take (SLICE_SIZE - offset)).length ≤ SLICE_SIZE := by
    rw [List.length_take]
    omega
  have hdata := write_data_eq hkv (s.length_slice num) hfit
  rw [write_loop, bind_of_ok (get_kv_ok.mpr ⟨hn, rfl, rfl⟩), htake,
    bind_of_ok (unwrap_ok_iff.mpr ⟨hdata, rfl⟩), bind_of_ok (put_ok (u := ()).mpr ⟨hn, rfl⟩)]
  by_cases hlen : rest.length ≤ SLICE_SIZE - offset
  · rw [if_pos hlen, Nat.min_eq_left hlen, if_pos rfl]
    rfl
  · have hmin : min rest.length (SLICE_SIZE - offset) = SLICE_SIZE - offset := by omega
    have hend : (offset + (SLICE_SIZE - offset)) % SLICE_SIZE = 0 := by
      rw [Nat.add_sub_cancel' (Nat.le_of_lt hoff), Nat.mod_self]
    rw [if_neg hlen, hmin, if_neg (by omega), hend]

/-- The loop is a write on the slices. -/
theorem write_loop_spec {fuel num offset : Nat} (count : Nat) {rest : Bytes}
    (hfuel : rest.length < fuel)
    (hoff : offset < SLICE_SIZE) (hn : db.Has n) (hwhole : Slices.Whole SLICE_SIZE (db.slices n))
    (hmax : num * SLICE_SIZE + offset + max 1 rest.length ≤ 2 ^ 32 * SLICE_SIZE) :
    ∃ db', write_loop n s fuel num offset count rest db = .Ok (count + rest.length, db') ∧
      db'.slices n = Slices.write SLICE_SIZE (num * SLICE_SIZE + offset) rest s.slice
        (db.slices n) := by
  induction fuel generalizing num offset count rest db with
  | zero => omega
  | succ fuel ih =>
    have hS := SLICE_SIZE_pos
    have hdiv : (num * SLICE_SIZE + offset) / SLICE_SIZE = num := by
      rw [Nat.mul_comm, Nat.mul_add_div hS, Nat.div_eq_of_lt hoff, Nat.add_zero]
    have hmod : (num * SLICE_SIZE + offset) % SLICE_SIZE = offset := by
      rw [Nat.mul_comm, Nat.mul_add_mod, Nat.mod_eq_of_lt hoff]
    have hnum : num < 2 ^ 32 := by
      by_contra hge
      have := Nat.mul_le_mul_right SLICE_SIZE (not_lt.mp hge)
      omega
    have hget := Db.slices_of_lt db n hnum
    have hkv : ∀ v, db.get n (slice_key num) = some v → v.length = SLICE_SIZE := by
      rw [← hget]
      exact hwhole num
    rw [write_loop_turn fuel count hoff hn hkv, ← hget, Slices.write_step hS, hdiv, hmod]
    split_ifs with hlen
    · exact ⟨_, rfl, slices_put _ hn hnum⟩
    · have hnext : (num + 1) * SLICE_SIZE = num * SLICE_SIZE + SLICE_SIZE := by
        rw [Nat.add_mul, Nat.one_mul]
      have hfit : offset + (rest.take (SLICE_SIZE - offset)).length ≤
          ((db.slices n num).getD (s.slice num)).length := by
        rw [Slices.length_base hwhole s.length_slice, List.length_take]
        omega
      have hwhole₁ := hwhole.update num (by
        rw [Slices.length_overlay_of_fits hfit, Slices.length_base hwhole s.length_slice])
      rw [← slices_put _ hn hnum] at hwhole₁
      have hdrop := List.length_drop (i := SLICE_SIZE - offset) (l := rest)
      have hmax₁ : (num + 1) * SLICE_SIZE + 0 + max 1 (rest.drop (SLICE_SIZE - offset)).length ≤
          2 ^ 32 * SLICE_SIZE := by
        omega
      obtain ⟨db', hrun, hslices⟩ := ih (count + (SLICE_SIZE - offset)) (by omega) hS
        ((Db.has_put _ _ _ _ _).mpr hn) hwhole₁ hmax₁
      refine ⟨db', ?_, ?_⟩
      · rw [hrun, List.length_drop]
        congr 2
        omega
      · rw [hslices, slices_put _ hn hnum, Nat.add_zero]

/-- One database is another but for the contents of file `n`: its size and its slices. -/
structure ContentOnly (n : UInt64) (db db' : Db) : Prop where
  has (m : UInt64) : db'.Has m ↔ db.Has m
  get (m : UInt64) (k : Bytes) : (m = n → k ≠ Field.size.key ∧ ∀ i, k ≠ slice_key i) →
    db'.get m k = db.get m k
  super_blk : db'.super_blk = db.super_blk

omit [Features] in
theorem SlicesOnly.content (h : SlicesOnly n db db') : ContentOnly n db db' :=
  ⟨h.has, fun m k hk => h.get m k fun e => (hk e).2, h.super_blk⟩

omit [Features] in
theorem ContentOnly.put_size (h : ContentOnly n db db') (v : Bytes) :
    ContentOnly n db (db'.put n Field.size.key v) where
  has m := (Db.has_put _ _ _ _ _).trans (h.has m)
  get m k hk := by
    rw [Db.get_put, if_neg, h.get m k hk]
    rintro ⟨rfl, rfl, _⟩
    exact (hk rfl).1 rfl
  super_blk := h.super_blk

/-- A write that returns has written all of its buffer and changed the contents of its file
only; the size grows to the end of the write. -/
theorem write_tx_only {buf : Bytes} {offset c : Nat}
    (h : write_tx n buf offset s db = .Ok (c, db')) :
    ContentOnly n db db' ∧ c = buf.length ∧ offset + buf.length < 2 ^ 64 ∧
      ∃ size, db.usize n .size = some size ∧
        db'.usize n .size = some (max size (offset + buf.length)) := by
  simp [write_tx] at h
  obtain ⟨hn, size, hsize, count, db₁, hloop, hlt, hend⟩ := h
  obtain ⟨honly, hcount⟩ := write_loop_only hloop
  rw [Nat.zero_add] at hcount
  subst hcount
  have hsize₁ := (honly.usize n .size).trans hsize
  rcases hend with ⟨hgrow, ⟨_, hdb⟩, hc⟩ | ⟨hgrow, hc, hdb⟩
  · subst hc hdb
    refine ⟨honly.content.put_size _, rfl, hlt, size, hsize, ?_⟩
    have hsize_lt := Db.lt_of_usize hsize
    simp [(honly.has n).mpr hn, usize_be (show max size (offset + buf.length) < 2 ^ 64 by omega)]
  · subst hc hdb
    refine ⟨honly.content, rfl, hlt, size, hsize, ?_⟩
    rw [hsize₁, Nat.max_eq_left hgrow]

/-- A write within the range of the slice numbers returns, and is a write on the slices. -/
theorem write_tx_spec {buf : Bytes} {offset size : Nat} (hsize : db.usize n .size = some size)
    (hwhole : Slices.Whole SLICE_SIZE (db.slices n))
    (hmax : offset + max 1 buf.length ≤ 2 ^ 32 * SLICE_SIZE) :
    ∃ db', write_tx n buf offset s db = .Ok (buf.length, db') ∧
      db'.slices n = Slices.write SLICE_SIZE offset buf s.slice (db.slices n) := by
  have hn := Db.has_of_usize hsize
  have hS := SLICE_SIZE_pos
  have hle := SLICE_SIZE_le
  obtain ⟨hoff, hmod⟩ := Slices.pos_eq hS (p := offset) rfl rfl
  rw [hoff] at hmax
  obtain ⟨db₁, hloop, hslices⟩ := write_loop_spec (s := s) 0
    (Nat.lt_succ_self buf.length) hmod hn hwhole hmax
  rw [← hoff] at hmax hslices
  rw [Nat.zero_add] at hloop
  have hlt : offset + buf.length < 2 ^ 64 := by omega
  have hn₁ := ((write_loop_only hloop).1.has n).mpr hn
  rw [write_tx, bind_of_ok (get_bucket_ok (u := ()).mpr ⟨hn, rfl⟩),
    bind_of_ok (read_usize_ok.mpr ⟨hsize, rfl⟩), bind_of_ok hloop,
    bind_of_ok (add_usize_ok.mpr ⟨hlt, rfl, rfl⟩)]
  by_cases hgrow : size < max size (offset + buf.length)
  · refine ⟨db₁.put n Field.size.key (be_usize (max size (offset + buf.length))), ?_, ?_⟩
    · simp only [if_pos hgrow]
      rw [bind_of_ok (put_ok (u := ()).mpr ⟨hn₁, rfl⟩)]
      rfl
    · rw [slices_congr, hslices]
      simp [Ne.symm (field_ne_slice_key _ _)]
  · refine ⟨db₁, ?_, hslices⟩
    simp only [if_neg hgrow]
    rfl

end write

/-! ## Truncate -/

section truncate

variable {n : UInt64} {db db' : Db} {u : Unit}

theorem delete_slices_only {is : List Nat} (h : delete_slices n is db = .Ok (u, db')) :
    SlicesOnly n db db' := by
  induction is generalizing db with
  | nil =>
    simp [delete_slices] at h
    rw [h]
    exact .refl n db
  | cons i is ih =>
    simp [delete_slices] at h
    obtain ⟨_, ⟨_, h⟩ | ⟨_, h⟩⟩ := h
    · exact (slicesOnly_delete db n i).trans (ih h)
    · exact ih h

/-- The deletes go through, and take the keys of these slices away. -/
theorem delete_slices_run (hn : db.Has n) (is : List Nat) :
    ∃ db', delete_slices n is db = .Ok ((), db') ∧
      ∀ k, db'.get n k = if ∃ i ∈ is, slice_key i = k then none else db.get n k := by
  induction is generalizing db with
  | nil => exact ⟨db, rfl, by simp⟩
  | cons i is ih =>
    rw [delete_slices, bind_of_ok (get_kv_ok.mpr ⟨hn, rfl, rfl⟩)]
    by_cases hsome : (db.get n (slice_key i)).isSome
    · obtain ⟨db', hrun, hget⟩ := ih ((Db.has_delete db n n (slice_key i)).mpr hn)
      refine ⟨db', ?_, fun k => ?_⟩
      · rw [if_pos hsome, bind_of_ok (delete_ok (u := ()).mpr ⟨hsome, rfl⟩)]
        exact hrun
      · rw [hget, Db.get_delete]
        by_cases hk : slice_key i = k
        · simp [hk]
        · simp [hk, Ne.symm hk]
    · obtain ⟨db', hrun, hget⟩ := ih hn
      refine ⟨db', ?_, fun k => ?_⟩
      · rw [if_neg hsome]
        exact hrun
      · rw [hget]
        by_cases hk : slice_key i = k
        · simp [← hk, Option.not_isSome_iff_eq_none.mp hsome]
        · simp [hk]

theorem delete_slices_spec (hn : db.Has n) {is : List Nat} (his : ∀ i ∈ is, i < 2 ^ 32) :
    ∃ db', delete_slices n is db = .Ok ((), db') ∧
      db'.slices n = fun i => if i ∈ is then none else db.slices n i := by
  obtain ⟨db', hrun, hget⟩ := delete_slices_run hn is
  refine ⟨db', hrun, funext fun i => ?_⟩
  by_cases hi : i < 2 ^ 32
  · have hkeys : (∃ j ∈ is, slice_key j = slice_key i) ↔ i ∈ is :=
      ⟨fun ⟨j, hj, e⟩ => slice_key_inj (his j hj) hi e ▸ hj, fun h => ⟨i, h, rfl⟩⟩
    rw [Db.slices_of_lt _ _ hi, Db.slices_of_lt _ _ hi, hget]
    simp only [hkeys]
  · simp only [Db.slices, if_neg hi, ite_self]

variable [Features]

theorem clear_slice_only {num offset : Nat} (h : clear_slice n num offset db = .Ok (u, db')) :
    SlicesOnly n db db' := by
  simp only [clear_slice, bind_ok, get_kv_ok] at h
  obtain ⟨kv, _, ⟨_, _, rfl⟩, h⟩ := h
  rcases kv with _ | v
  · simp only [pure_ok] at h
    rw [h.2]
    exact .refl n _
  · simp only [bind_ok, assert_ok, put_ok] at h
    obtain ⟨_, _, ⟨_, rfl⟩, _, rfl⟩ := h
    exact slicesOnly_put _ n num _

theorem clear_slice_spec (hn : db.Has n) (hwhole : Slices.Whole SLICE_SIZE (db.slices n))
    (num : Nat) (hnum : num < 2 ^ 32) (offset : Nat) :
    ∃ db', clear_slice n num offset db = .Ok ((), db') ∧
      db'.slices n = Function.update (db.slices n) num ((db.slices n num).map fun v =>
        v.take offset ++ List.replicate (SLICE_SIZE - offset) 0) := by
  rw [clear_slice, bind_of_ok (get_kv_ok.mpr ⟨hn, rfl, rfl⟩), ← Db.slices_of_lt db n hnum]
  rcases hv : db.slices n num with _ | v
  · refine ⟨db, rfl, ?_⟩
    rw [Option.map_none, ← hv, Function.update_eq_self]
  · have hlen := hwhole num v hv
    refine ⟨db.put n (slice_key num) (v.take offset ++ List.replicate (SLICE_SIZE - offset) 0),
      ?_, ?_⟩
    · simp only
      rw [bind_of_ok (assert_ok (u := ()).mpr ⟨by simp [hlen], rfl⟩),
        List.drop_eq_nil_of_le (by omega), List.append_nil]
      exact put_ok.mpr ⟨hn, rfl⟩
    · rw [slices_put _ hn hnum, Option.map_some]

/-- The free space that the super block has noted. -/
def Db.disk_size (db : Db) : Option Nat := (db.sb .disk_size).bind common.usize

/-- What a call on the contents of file `n` may change: its fields and slices, and the free
space. -/
structure FileOnly (n : UInt64) (db db' : Db) : Prop where
  has (m : UInt64) : db'.Has m ↔ db.Has m
  get (m : UInt64) (k : Bytes) : (m = n → (∀ f : Field, k ≠ f.key) ∧ ∀ i, k ≠ slice_key i) →
    db'.get m k = db.get m k

omit [Features] in
theorem usize_lt_of_disk {d : Nat} (h : db.disk_size = some d) : d < 2 ^ 64 := by
  obtain ⟨v, _, hv⟩ := Option.bind_eq_some_iff.mp h
  exact usize_lt hv

omit [Features] in
theorem Db.has_super_blk {d : Nat} (h : db.disk_size = some d) : db.super_blk.isSome := by
  obtain ⟨v, hv, _⟩ := Option.bind_eq_some_iff.mp h
  obtain ⟨b, hb, _⟩ := Option.bind_eq_some_iff.mp hv
  rw [hb]
  rfl

omit [Features] in
theorem charge_ok {gap : Nat} : charge gap db = .Ok (u, db') ↔
    ∃ d, db.disk_size = some d ∧ gap ≤ d ∧
      db' = db.sb_put .disk_size (be_usize (d - gap)) := by
  simp only [charge, bind_ok, ok_unwrap_ok, get_super_blk_ok, sb_usize_ok, ensure_ok, sb_put_ok,
    decide_eq_true_eq]
  constructor
  · rintro ⟨_, _, ⟨_, rfl⟩, d, _, ⟨hd, rfl⟩, _, _, ⟨hle, rfl⟩, _, rfl⟩
    exact ⟨d, hd, hle, rfl⟩
  · rintro ⟨d, hd, hle, rfl⟩
    have hsb := Db.has_super_blk hd
    exact ⟨(), db, ⟨hsb, rfl⟩, d, db, ⟨hd, rfl⟩, (), db, ⟨hle, rfl⟩, hsb, rfl⟩

theorem truncate_blocks_ok {f_size size : Nat}
    (h : truncate_blocks n f_size size db = .Ok (u, db')) :
    ∃ db₁ d d', SlicesOnly n db db₁ ∧ db.disk_size = some d ∧ d' < 2 ^ 64 ∧
      db' = db₁.sb_put .disk_size (be_usize d') ∧
      if size / SLICE_SIZE < f_size / SLICE_SIZE then d = d' + (f_size - size)
      else d' = d + (size / SLICE_SIZE - f_size / SLICE_SIZE) * SLICE_SIZE := by
  simp only [truncate_blocks, ite_ok, charge_ok] at h
  rcases h with ⟨hgrow, d, hd, hle, rfl⟩ | ⟨hgrow, h⟩
  · have hlt := usize_lt_of_disk hd
    refine ⟨db, d, d - (f_size - size), .refl n db, hd, by omega, rfl, ?_⟩
    rw [if_pos hgrow]
    omega
  · simp at h
    obtain ⟨_, db₁, hdelete, _, db₂, hclear, _, d, hd, hlt, _, rfl⟩ := h
    have honly := (delete_slices_only hdelete).trans (clear_slice_only hclear)
    refine ⟨db₂, d, _, honly, ?_, hlt, rfl, if_neg hgrow ▸ rfl⟩
    rw [← hd, Db.disk_size, Db.sb, Db.sb, honly.super_blk]

theorem truncate_tx_only {ctime : DbfsTimeSpec} {f_size : UInt64} {attr a : DbfsAttr}
    (h : truncate_tx n ctime f_size attr db = .Ok (a, db')) :
    FileOnly n db db' ∧ db'.usize n .size = some f_size.toNat ∧
      ∃ d d', db.disk_size = some d ∧ db'.disk_size = some d' ∧
        if attr.size / SLICE_SIZE < f_size.toNat / SLICE_SIZE then
          d = d' + (f_size.toNat - attr.size)
        else d' = d + (attr.size / SLICE_SIZE - f_size.toNat / SLICE_SIZE) * SLICE_SIZE := by
  simp [truncate_tx] at h
  obtain ⟨hn, _, db₁, hblocks, _, ⟨_, rfl⟩, _⟩ := h
  obtain ⟨db₂, d, d', honly, hd, hlt, rfl, hspace⟩ := truncate_blocks_ok hblocks
  have hn₂ := (honly.has n).mpr hn
  have hsb : db₂.super_blk.isSome := by
    rw [honly.super_blk]
    exact Db.has_super_blk hd
  refine ⟨⟨fun m => ?_, fun m k hk => ?_⟩, ?_, d, d', hd, ?_, hspace⟩
  · simp [honly.has]
  · rw [← honly.get m k fun e => (hk e).2]
    by_cases hm : m = n
    · simp [(hk hm).1]
    · simp [hm]
  · simp [hn₂, usize_be f_size.toNat_lt]
  · simp [Db.disk_size, Db.sb_sb_put, hsb, usize_be hlt]

omit [Features] in
theorem truncate_attr_state (r_uid r_gid : UInt32) (n : UInt64) (s : Sys) :
    (truncate_attr r_uid r_gid n s).2 = s := by
  rw [truncate_attr, dbfs_common_attr, Fs.map_err_read, Fs.bind_read]
  split
  · rw [Fs.bind_ensure]
    split_ifs <;> rfl
  · rfl
  · rfl

omit [Features] in
/-- The first step of truncate only looks, and takes the size with it. -/
theorem truncate_attr_ok {r_uid r_gid : UInt32} {s s' : Sys} {attr : DbfsAttr}
    (h : truncate_attr r_uid r_gid n s = (.Ok attr, s')) :
    s' = s ∧ s.db.usize n .size = some attr.size := by
  simp only [truncate_attr, dbfs_common_attr, Fs.bind_ok, Fs.map_err_ok, Fs.read_ok, Fs.ensure_ok,
    Fs.pure_ok] at h
  obtain ⟨_, _, ⟨⟨db', htx⟩, rfl⟩, _, _, ⟨_, rfl⟩, rfl, rfl⟩ := h
  exact ⟨rfl, (attr_tx_spec htx).2.2.2.2.1⟩

theorem truncate_blocks_slices {f_size size : Nat} (hn : db.Has n)
    (hwhole : Slices.Whole SLICE_SIZE (db.slices n)) (hsize : size < 2 ^ 32 * SLICE_SIZE)
    (h : truncate_blocks n f_size size db = .Ok (u, db')) :
    db'.slices n = Slices.cut SLICE_SIZE 0 size f_size (db.slices n) := by
  have hblock : size / SLICE_SIZE < 2 ^ 32 := by
    rw [Nat.div_lt_iff_lt_mul SLICE_SIZE_pos]
    exact hsize
  have hmem : ∀ i, i ∈ List.range' (f_size / SLICE_SIZE + 1)
      (size / SLICE_SIZE - f_size / SLICE_SIZE) ↔
      f_size / SLICE_SIZE < i ∧ i ≤ size / SLICE_SIZE := by
    intro i
    rw [List.mem_range'_1]
    omega
  simp only [truncate_blocks, ite_ok, charge_ok] at h
  rcases h with ⟨hgrow, d, _, _, rfl⟩ | ⟨hgrow, h⟩
  · funext i
    rw [Slices.cut, if_pos hgrow]
    rfl
  · simp at h
    obtain ⟨_, db₁, hdelete, _, db₂, hclear, _, d, hd, hlt, _, rfl⟩ := h
    have hsmall : ∀ i ∈ List.range' (f_size / SLICE_SIZE + 1)
        (size / SLICE_SIZE - f_size / SLICE_SIZE), i < 2 ^ 32 := by
      intro i hi
      have := (hmem i).mp hi
      omega
    obtain ⟨db₁', hdelete', hslices₁⟩ := delete_slices_spec hn hsmall
    cases hdelete.symm.trans hdelete'
    simp only [hmem] at hslices₁
    have hwhole₁ : Slices.Whole SLICE_SIZE (db₁.slices n) := by
      intro i v hv
      simp only [hslices₁] at hv
      split_ifs at hv
      exact hwhole i v hv
    obtain ⟨db₂', hclear', hslices₂⟩ := clear_slice_spec
      (((delete_slices_only hdelete).has n).mpr hn) hwhole₁ (f_size / SLICE_SIZE) (by omega)
      (f_size % SLICE_SIZE)
    cases hclear.symm.trans hclear'
    change db₂.slices n = _
    rw [hslices₂, hslices₁]
    funext i
    rw [Slices.cut, if_neg hgrow]
    by_cases hi : i = f_size / SLICE_SIZE
    · subst hi
      simp
    · simp only [Function.update_of_ne hi, if_neg hi]

theorem truncate_tx_slices {ctime : DbfsTimeSpec} {f_size : UInt64} {attr a : DbfsAttr}
    (hwhole : Slices.Whole SLICE_SIZE (db.slices n)) (hsize : attr.size < 2 ^ 32 * SLICE_SIZE)
    (h : truncate_tx n ctime f_size attr db = .Ok (a, db')) :
    db'.slices n = Slices.cut SLICE_SIZE 0 attr.size f_size.toNat (db.slices n) := by
  simp [truncate_tx] at h
  obtain ⟨hn, _, db₁, hblocks, _, ⟨_, rfl⟩, _⟩ := h
  rw [← truncate_blocks_slices hn hwhole hsize hblocks]
  apply slices_congr
  simp [Ne.symm (field_ne_slice_key _ _)]

/-! ## Fallocate -/

omit [Features] in
theorem fallocate_size_ok {f_size i_size : Nat} {mode : UInt32} {ctime : DbfsTimeSpec}
    (hn : db.Has n) (hsize : db.usize n .size = some i_size) (hlt : f_size < 2 ^ 64)
    (h : fallocate_size n f_size i_size mode ctime db = .Ok (u, db')) :
    FileOnly n db db' ∧ db'.slices n = db.slices n ∧ db'.super_blk = db.super_blk ∧
      db'.usize n .size =
        some (if mode &&& FALLOC_FL_KEEP_SIZE = 0 then max i_size f_size else i_size) := by
  have hslices : ∀ i, slice_key i ≠ Field.ctime.key ∧ slice_key i ≠ Field.mtime.key ∧
      slice_key i ≠ Field.size.key := fun i =>
    ⟨(field_ne_slice_key _ i).symm, (field_ne_slice_key _ i).symm, (field_ne_slice_key _ i).symm⟩
  simp [fallocate_size] at h
  rcases h with ⟨hkeep, _, ⟨hgrow, _, rfl⟩ | ⟨hgrow, rfl⟩⟩ | ⟨hkeep, rfl⟩
  · refine ⟨⟨fun m => by simp, fun m k hk => ?_⟩, slices_congr (by simp [hslices]), rfl, ?_⟩
    · by_cases hm : m = n
      · simp [(hk hm).1]
      · simp [hm]
    · simp [hn, hkeep, usize_be hlt, Nat.max_eq_right (Nat.le_of_lt hgrow)]
  · refine ⟨⟨fun m => by simp, fun m k hk => ?_⟩, slices_congr (by simp [hslices]), rfl, ?_⟩
    · by_cases hm : m = n
      · simp [(hk hm).1]
      · simp [hm]
    · simp [hkeep, hsize, Nat.max_eq_left hgrow]
  · exact ⟨⟨fun m => Iff.rfl, fun m k hk => rfl⟩, rfl, rfl, by simp [hkeep, hsize]⟩

/-- Fallocate changes no slice. The size grows unless it is to be kept; free space is taken
either way, when the end lies in a later slice. -/
theorem fallocate_tx_only {r_uid r_gid : UInt32} {offset size : Nat} {mode : UInt32}
    {ctime : DbfsTimeSpec}
    (h : fallocate_tx r_uid r_gid n offset size mode ctime db = .Ok (u, db')) :
    FileOnly n db db' ∧ db'.slices n = db.slices n ∧ ∃ i_size, db.usize n .size = some i_size ∧
      db'.usize n .size = some
        (if mode &&& FALLOC_FL_KEEP_SIZE = 0 then max i_size (offset + size) else i_size) ∧
      if i_size / SLICE_SIZE < (offset + size) / SLICE_SIZE then
        ∃ d d', db.disk_size = some d ∧ db'.disk_size = some d' ∧ d = d' + (offset + size - i_size)
      else db'.disk_size = db.disk_size := by
  simp [fallocate_tx, charge_ok] at h
  obtain ⟨hn, _, _, _, _, _, _, i_size, hsize, _, hlt, h⟩ := h
  rcases h with ⟨hgrow, d, ⟨hd, hle⟩, h⟩ | ⟨hgrow, h⟩
  · have hd' : d - (offset + size - i_size) < 2 ^ 64 := by
      have := usize_lt_of_disk hd
      omega
    have hsize₁ : (db.sb_put .disk_size (be_usize (d - (offset + size - i_size)))).usize n .size =
        some i_size := hsize
    obtain ⟨honly, hslices, hsb, hsize'⟩ := fallocate_size_ok (Db.has_of_usize hsize₁) hsize₁ hlt h
    refine ⟨⟨honly.has, honly.get⟩, hslices, i_size, hsize, hsize', ?_⟩
    rw [if_pos hgrow]
    refine ⟨d, d - (offset + size - i_size), hd, ?_, by omega⟩
    rw [Db.disk_size, Db.sb, hsb, ← Db.sb, Db.sb_sb_put, if_pos ⟨rfl, Db.has_super_blk hd⟩]
    exact usize_be hd'
  · obtain ⟨honly, hslices, hsb, hsize'⟩ := fallocate_size_ok hn hsize hlt h
    refine ⟨honly, hslices, i_size, hsize, hsize', ?_⟩
    rw [if_neg (by omega), Db.disk_size, Db.disk_size, Db.sb, Db.sb, hsb]

end truncate

end dbfs2
