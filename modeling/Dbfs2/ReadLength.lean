-- How many bytes a read returns. The walk ends with the last stored slice, and loses
-- the first slice of a gap that it meets while it counts one slice too far.
import Dbfs2.Holes

namespace dbfs2

open common Tx inode file

/-! ## The slices that are lost -/

/-- The lengths of the gaps among `k` slices from `i` on, each ended by a stored slice; `g` absent
slices stand right before them. -/
def gap_lengths (f : Nat → Option Bytes) : Nat → Nat → Nat → List Nat
  | _, _, 0 => []
  | g, i, k + 1 =>
    match f i with
    | none => gap_lengths f (g + 1) (i + 1) k
    | some _ => if g = 0 then gap_lengths f 0 (i + 1) k else g :: gap_lengths f 0 (i + 1) k

/-- The number of slices that are lost in gaps of some lengths. The first gap is read in full,
and leaves the walk ahead by one. Ahead, it loses one slice of the next gap; it stays ahead
unless that was all of the gap. -/
def lost : (ahead : Bool) → List Nat → Nat
  | _, [] => 0
  | false, _ :: gaps => lost true gaps
  | true, gap :: gaps => 1 + lost (gap != 1) gaps

section count

variable {f : Nat → Option Bytes} {E : Nat → Bytes} {S : Nat}

theorem gap_lengths_of_none {g i k : Nat} (h : present f i k = []) : gap_lengths f g i k = [] := by
  induction k generalizing g i with
  | zero => rfl
  | succ k ih =>
    rcases hi : f i with _ | v
    · rw [present_none hi] at h
      rw [gap_lengths, hi]
      exact ih h
    · rw [present_some hi] at h
      cases h

theorem length_full_row {u n : Nat} (h : ∀ m, u ≤ m → m < u + n → (E m).length = S) :
    ((List.range' u n).flatMap E).length = n * S := by
  induction n generalizing u with
  | zero => simp
  | succ n ih =>
    rw [List.range'_succ, List.flatMap_cons, List.length_append, h u (le_refl u) (by omega),
      ih fun m h1 h2 => h m (by omega) (by omega), Nat.add_mul, Nat.one_mul, Nat.add_comm]

/-- The bytes that are laid down and the slices that are lost make up all slices up to the last
stored one. The walk stands at slice `i`; the gap before it starts at `u`. -/
theorem laid_out_length {a : Bool} {u i k j : Nat} (hui : u ≤ i)
    (hj : (present f i k).getLast? = some j) (hfull : ∀ m < j, (E m).length = S) :
    ((laid_out (present f i k) (u + a.toNat)).flatMap E).length +
      lost a (gap_lengths f (i - u) i k) * S = (j - u) * S + (E j).length := by
  induction k generalizing a u i with
  | zero => cases hj
  | succ k ih =>
    have hij : i ≤ j := (mem_present.mp (List.mem_of_getLast? hj)).1.1
    rcases hi : f i with _ | v
    · rw [present_none hi] at hj ⊢
      rw [gap_lengths, hi, show i - u + 1 = i + 1 - u by omega]
      exact ih (by omega) hj
    · rw [present_some hi] at hj ⊢
      -- slice `i` and what comes after it, with the walk ahead or not
      have hrest : ∀ b : Bool, (E i).length +
          ((laid_out (present f (i + 1) k) (i + 1 + b.toNat)).flatMap E).length +
            lost b (gap_lengths f 0 (i + 1) k) * S = (j - i) * S + (E j).length := by
        intro b
        rcases hnext : present f (i + 1) k with _ | ⟨i', is⟩
        · rw [hnext] at hj
          cases hj
          rw [gap_lengths_of_none hnext, laid_out, lost]
          simp
        · rw [hnext, List.getLast?_cons_cons, ← hnext] at hj
          have hlt : i + 1 ≤ j := (mem_present.mp (List.mem_of_getLast? hj)).1.1
          have hmore := ih (a := b) (le_refl (i + 1)) hj
          rw [Nat.sub_self, hnext] at hmore
          rw [hfull i hlt, Nat.add_assoc, hmore, show j - i = j - (i + 1) + 1 by omega, Nat.add_mul,
            Nat.one_mul]
          omega
      -- the slices of the gap, from `w` on
      have hrow : ∀ w, ((List.range' w (i - w)).flatMap E).length = (i - w) * S := fun w =>
        length_full_row fun m h1 h2 => hfull m (by omega)
      have hsplit : (j - u) * S = (j - i) * S + (i - u) * S := by
        rw [← Nat.add_mul]
        congr 1
        omega
      rw [laid_out, gap_lengths, hi]
      cases a with
      | false =>
        rw [Bool.toNat_false, Nat.add_zero]
        by_cases hiu : i = u
        · have h := hrest false
          subst hiu
          simpa [Nat.add_assoc] using h
        · have h := hrest true
          rw [show i + 1 + true.toNat = i + 2 from rfl] at h
          have hgap : i - u ≠ 0 := by omega
          rw [if_neg hiu]
          simp only [if_neg hgap, lost, List.flatMap_append, List.flatMap_cons, List.length_append,
            hrow]
          rw [hsplit]
          omega
      | true =>
        rw [Bool.toNat_true]
        by_cases hiu : i = u + 1
        · have h := hrest false
          have hgap : i - u = 1 := by omega
          rw [if_pos hiu, hsplit]
          simp only [hgap, one_ne_zero, if_false, lost, bne_self_eq_false, List.flatMap_cons,
            List.length_append, Nat.add_mul, Nat.one_mul]
          simp only [Bool.toNat_false, Nat.add_zero] at h
          omega
        · have h := hrest true
          rw [show i + 1 + true.toNat = i + 2 from rfl] at h
          rw [if_neg hiu, hsplit]
          simp only [List.flatMap_append, List.flatMap_cons, List.length_append, hrow]
          rcases Nat.eq_zero_or_pos (i - u) with hgap | hgap
          · have hrange : i - (u + 1) = 0 := by omega
            simp only [hgap, hrange, if_true, Nat.zero_mul]
            omega
          · have hne : i - u ≠ 1 := by omega
            have hrange : (i - u) * S = (i - (u + 1)) * S + S := by
              rw [show i - u = i - (u + 1) + 1 by omega, Nat.add_mul, Nat.one_mul]
            simp only [if_neg (show i - u ≠ 0 by omega), lost, bne_iff_ne.mpr hne, Nat.add_mul,
              Nat.one_mul]
            omega

end count

/-! ## The count of a read -/

section length

variable [Features] {db : Db} {n : UInt64} {size : Nat}

/-- The read returns with the count that is due: all that is asked for, or all that is left. -/
def ReadsLength (s : Sys) (n : UInt64) (buf : Bytes) (offset size : Nat) : Prop :=
  ∃ b, dbfs_common_read n buf offset s =
    (.Ok (if size ≤ offset then 0 else min buf.length (size - offset), b), s)

/-- The slices that a read of `len` bytes at `offset` loses on its way to the last stored one. -/
def lost_slices (f : Nat → Option Bytes) (size offset len : Nat) : Nat :=
  lost false (gap_lengths f 0 (offset / SLICE_SIZE)
    (min ((offset + len) / SLICE_SIZE) (size / SLICE_SIZE) + 1 - offset / SLICE_SIZE))

/-- No slice is lost and a stored one holds the last byte that is due or comes after it; or one
is lost, and the slice right behind the range makes up for it. -/
def ReachesEnd (f : Nat → Option Bytes) (size offset len : Nat) : Prop :=
  (lost_slices f size offset len = 0 ∧ ∃ j, offset / SLICE_SIZE ≤ j ∧
    j ≤ min ((offset + len) / SLICE_SIZE) (size / SLICE_SIZE) ∧ (f j).isSome ∧
    min (offset + len) size ≤ (j + 1) * SLICE_SIZE) ∨
  (lost_slices f size offset len = 1 ∧ len % SLICE_SIZE = 0 ∧ offset + len + SLICE_SIZE ≤ size ∧
    (f ((offset + len) / SLICE_SIZE)).isSome)

omit [Features] in
/-- The count as far as slice `j`, the last stored one, when `l` slices are lost. -/
theorem count_iff {S first len size j l L : Nat} (hS : 0 < S) (hoff : first * S < size)
    (hfirst : first ≤ j) (hj : j * S ≤ min (first * S + len) size)
    (hL : L + l * S = (j - first) * S + min (size - j * S) S) :
    min L len = min len (size - first * S) ↔ len = 0 ∨
      (l = 0 ∧ min (first * S + len) size ≤ (j + 1) * S) ∨
      (l = 1 ∧ len % S = 0 ∧ first * S + len + S ≤ size ∧ j = (first * S + len) / S) := by
  have hjS : (j + 1) * S = j * S + S := by rw [Nat.add_mul, Nat.one_mul]
  have hsub : (j - first) * S = j * S - first * S := Nat.sub_mul ..
  have hle : first * S ≤ j * S := Nat.mul_le_mul_right S hfirst
  -- slice `j` is the one of the end
  have hend : first * S + len = j * S ↔ len % S = 0 ∧ j = (first * S + len) / S := by
    constructor
    · intro h
      refine ⟨?_, ?_⟩
      · rw [← Nat.mul_add_mod' first S len, h, Nat.mul_mod_left]
      · rw [h, Nat.mul_div_cancel _ hS]
    · rintro ⟨hmod, hj⟩
      have hdvd : S ∣ first * S + len :=
        Nat.dvd_add (Nat.dvd_mul_left ..) (Nat.dvd_of_mod_eq_zero hmod)
      rw [hj, Nat.div_mul_cancel hdvd]
  have hcase : (l = 0 ∧ l * S = 0) ∨ (l = 1 ∧ l * S = S) ∨ (2 ≤ l ∧ 2 * S ≤ l * S) := by
    rcases l with _ | _ | l
    · exact .inl ⟨rfl, Nat.zero_mul _⟩
    · exact .inr (.inl ⟨rfl, Nat.one_mul _⟩)
    · exact .inr (.inr ⟨by omega, Nat.mul_le_mul_right S (by omega)⟩)
  have hlast : (l = 1 ∧ len % S = 0 ∧ first * S + len + S ≤ size ∧ j = (first * S + len) / S) ↔
      l = 1 ∧ first * S + len = j * S ∧ first * S + len + S ≤ size := by
    rw [hend]
    tauto
  rw [hlast, hjS]
  rw [hsub] at hL
  clear hlast hend hjS hsub
  generalize first * S = o at *
  generalize j * S = a at *
  rcases hcase with ⟨hl, hlS⟩ | ⟨hl, hlS⟩ | ⟨hl, hlS⟩
  · rw [hlS] at hL
    simp only [hl, true_and, Nat.zero_ne_one, false_and, or_false]
    omega
  · rw [hlS] at hL
    simp only [hl, true_and, one_ne_zero, false_and, false_or]
    omega
  · have h0 : l ≠ 0 := by omega
    have h1 : l ≠ 1 := by omega
    simp only [h0, h1, false_and, or_false]
    omega

/-- The count of a read at the start of a slice. -/
theorem Holey.count (h : Holey db n size) {first len : Nat} (hoff : first * SLICE_SIZE < size) :
    min (laid_down db n size first (min (len / SLICE_SIZE) (size / SLICE_SIZE - first) + 1)).length
        len = min len (size - first * SLICE_SIZE) ↔
      len = 0 ∨ ReachesEnd (db.slices n) size (first * SLICE_SIZE) len := by
  have hS := SLICE_SIZE_pos
  have hfirst : first ≤ size / SLICE_SIZE := (Nat.le_div_iff_mul_le hS).mpr (by omega)
  have hend : (first * SLICE_SIZE + len) / SLICE_SIZE = first + len / SLICE_SIZE := by
    rw [Nat.mul_comm, Nat.mul_add_div hS]
  have hcount : min ((first * SLICE_SIZE + len) / SLICE_SIZE) (size / SLICE_SIZE) + 1 - first =
      min (len / SLICE_SIZE) (size / SLICE_SIZE - first) + 1 := by
    rw [hend]
    generalize size / SLICE_SIZE = blocks at hfirst ⊢
    generalize len / SLICE_SIZE = count
    omega
  have hlost : lost_slices (db.slices n) size (first * SLICE_SIZE) len =
      lost false (gap_lengths (db.slices n) 0 first
        (min (len / SLICE_SIZE) (size / SLICE_SIZE - first) + 1)) := by
    rw [lost_slices, Nat.mul_div_cancel _ hS, hcount]
  have hlast : first + (min (len / SLICE_SIZE) (size / SLICE_SIZE - first) + 1) =
      min ((first * SLICE_SIZE + len) / SLICE_SIZE) (size / SLICE_SIZE) + 1 := by omega
  -- a slice of the range starts before the end of the read
  have hbefore : ∀ j, j ≤ min ((first * SLICE_SIZE + len) / SLICE_SIZE) (size / SLICE_SIZE) →
      j * SLICE_SIZE ≤ min (first * SLICE_SIZE + len) size := by
    intro j hj
    have h1 := (Nat.le_div_iff_mul_le hS).mp (hj.trans (Nat.min_le_left ..))
    have h2 := (Nat.le_div_iff_mul_le hS).mp (hj.trans (Nat.min_le_right ..))
    omega
  unfold ReachesEnd
  rw [hlost, Nat.mul_div_cancel _ hS]
  unfold laid_down
  generalize min (len / SLICE_SIZE) (size / SLICE_SIZE - first) + 1 = k at *
  have hmem : ∀ j, first ≤ j →
      j ≤ min ((first * SLICE_SIZE + len) / SLICE_SIZE) (size / SLICE_SIZE) →
      (db.slices n j).isSome → j ∈ present (db.slices n) first k := fun j h1 h2 hsome =>
    mem_present.mpr ⟨by omega, hsome⟩
  -- the slice behind the range is one that is walked
  have hbehind : first * SLICE_SIZE + len + SLICE_SIZE ≤ size →
      first ≤ (first * SLICE_SIZE + len) / SLICE_SIZE ∧ (first * SLICE_SIZE + len) / SLICE_SIZE ≤
        min ((first * SLICE_SIZE + len) / SLICE_SIZE) (size / SLICE_SIZE) := by
    intro hle
    have hdiv := Nat.div_le_div_right (c := SLICE_SIZE)
      (show first * SLICE_SIZE + len ≤ size by omega)
    exact ⟨by rw [hend]; exact Nat.le_add_right .., Nat.le_min.mpr ⟨le_refl _, hdiv⟩⟩
  rcases hpresent : (present (db.slices n) first k).getLast? with _ | j
  · -- nothing is laid down
    rw [List.getLast?_eq_none_iff] at hpresent
    rw [hpresent] at hmem ⊢
    simp only [laid_out, List.flatMap_nil, List.length_nil, Nat.zero_min]
    constructor
    · intro hzero
      exact .inl (by omega)
    · rintro (hlen | ⟨_, j, h1, h2, hsome, _⟩ | ⟨_, _, hle, hsome⟩)
      · omega
      · cases hmem j h1 h2 hsome
      · cases hmem _ (hbehind hle).1 (hbehind hle).2 hsome
  · obtain ⟨⟨hj1, hj2⟩, hjsome⟩ := mem_present.mp (List.mem_of_getLast? hpresent)
    have hj : j ≤ min ((first * SLICE_SIZE + len) / SLICE_SIZE) (size / SLICE_SIZE) := by omega
    have hfull : ∀ m < j, (content (db.slices n) size m).length = SLICE_SIZE := fun m hm =>
      length_content_of_lt h.whole (by omega)
    have hlaid : ((laid_out (present (db.slices n) first k) first).flatMap
        (content (db.slices n) size)).length + lost false (gap_lengths (db.slices n) 0 first k) *
          SLICE_SIZE = (j - first) * SLICE_SIZE + min (size - j * SLICE_SIZE) SLICE_SIZE := by
      rw [← length_content h.whole, ← Nat.sub_self first]
      exact laid_out_length (a := false) (le_refl first) hpresent hfull
    have hmax : ∀ j' ∈ present (db.slices n) first k, j' ≤ j := by
      obtain ⟨before, hbefore⟩ := List.getLast?_eq_some_iff.mp hpresent
      have hsorted := present_sorted (db.slices n) first k
      rw [hbefore, List.pairwise_append] at hsorted
      intro j' hj'
      rw [hbefore, List.mem_append, List.mem_singleton] at hj'
      rcases hj' with hj' | rfl
      · exact Nat.le_of_lt (hsorted.2.2 j' hj' j (List.mem_singleton_self j))
      · exact le_refl j'
    rw [count_iff hS hoff hj1 (hbefore j hj) hlaid]
    refine or_congr_right (or_congr (and_congr_right fun _ => ⟨fun hle => ?_, ?_⟩)
      (and_congr_right fun _ => and_congr_right fun _ => and_congr_right fun hle => ⟨?_, ?_⟩))
    · exact ⟨j, hj1, hj, hjsome, hle⟩
    · rintro ⟨j', h1, h2, hsome, hle⟩
      have := Nat.mul_le_mul_right SLICE_SIZE
        (Nat.succ_le_succ (hmax j' (hmem j' h1 h2 hsome)))
      exact hle.trans this
    · rintro rfl
      exact hjsome
    · intro hsome
      have hge := hmax _ (hmem _ (hbehind hle).1 (hbehind hle).2 hsome)
      exact Nat.le_antisymm (hj.trans (Nat.min_le_left ..)) hge

theorem Holey.reads_length_iff {s : Sys} (h : Holey s.db n size) (buf : Bytes) {offset : Nat}
    (halign : offset % SLICE_SIZE = 0) (hbuf : buf.length < 2 ^ 63) :
    ReadsLength s n buf offset size ↔
      size ≤ offset ∨ buf.length = 0 ∨ ReachesEnd (s.db.slices n) size offset buf.length := by
  obtain ⟨first, rfl⟩ : ∃ first, offset = first * SLICE_SIZE :=
    ⟨offset / SLICE_SIZE, (Nat.div_mul_cancel (Nat.dvd_of_mod_eq_zero halign)).symm⟩
  unfold ReadsLength dbfs_common_read
  simp only [Fs.read_ok, and_true]
  by_cases hoff : size ≤ first * SLICE_SIZE
  · rw [if_pos hoff, read_past h.size_eq buf hoff]
    exact iff_of_true ⟨buf, s.db, rfl⟩ (.inl hoff)
  · rw [h.read buf hbuf (not_le.mp hoff), if_neg hoff, or_iff_right hoff,
      ← h.count (not_le.mp hoff)]
    constructor
    · rintro ⟨b, db', heq⟩
      simp only [DbfsResult.Ok.injEq, Prod.mk.injEq] at heq
      exact heq.1.1
    · intro hcount
      exact ⟨_, s.db, by rw [← hcount]; rfl⟩

end length

/-! ## Files that calls have made -/

section runs

variable [Features] {n : UInt64} {db : Db} {s : Sys}

/-- A call changes no other file, and of its own file the fields and the slices. -/
theorem ContentCall.run_fileOnly {call : ContentCall} {scratch : Scratch} {s' : Sys}
    (h : call.run n scratch s = (.Ok (), s')) : FileOnly n s.db s'.db := by
  cases call with
  | write offset buf =>
    simp only [run, dbfs_common_write, Fs.bind_ok, Fs.write_ok, Fs.pure_ok] at h
    obtain ⟨_, _, ⟨db', htx, rfl⟩, _, rfl⟩ := h
    exact (write_tx_only htx).1.file
  | truncate r_uid r_gid ctime f_size =>
    simp only [run, dbfs_common_truncate, Fs.bind_ok, Fs.write_ok, Fs.pure_ok] at h
    obtain ⟨_, _, ⟨attr, s₁, hattr, db', htx, rfl⟩, _, rfl⟩ := h
    obtain ⟨rfl, _⟩ := truncate_attr_ok hattr
    exact (truncate_tx_only htx).1
  | fallocate r_uid r_gid offset len mode ctime =>
    simp only [run, dbfs_common_fallocate, Fs.write_ok] at h
    obtain ⟨db', htx, rfl⟩ := h
    exact (fallocate_tx_only htx).1

/-- What every row of calls keeps: whole slices, and no other key under their beginning. -/
structure Regulated (db : Db) (n : UInt64) : Prop where
  has : db.Has n
  sliced : db.Sliced n
  keys : SliceKeys db n

theorem NewFile.regulated (h : NewFile db n) : Regulated db n :=
  ⟨Db.has_of_usize h.size, whole_slices.mp h.holds.whole, h.holds.dense.keys⟩

theorem Regulated.step (h : Regulated s.db n) (call : ContentCall) (scratch : Scratch) :
    Regulated (call.run n scratch s).2.db n := by
  obtain ⟨hhas, hsliced⟩ := call.run_sliced scratch h.has h.sliced
  refine ⟨hhas, hsliced, ?_⟩
  rcases call.run_atomic scratch s with hstay | ⟨⟨⟩, hok⟩
  · rw [hstay]
    exact h.keys
  · exact (ContentCall.run_fileOnly (Prod.ext hok rfl)).sliceKeys h.keys

theorem Regulated.run (h : Regulated s.db n) (calls : List (ContentCall × Scratch)) :
    Regulated (after_run n s calls).db n := by
  induction calls generalizing s with
  | nil => exact h
  | cons c calls ih => exact ih (h.step c.1 c.2)

/-- A read at the start of a slice, of a file that any row of calls has made, returns the count
that is due exactly when nothing is due or its walk reaches the end. -/
theorem read_length_iff (dir : UInt64) (name : String) (uid gid : UInt32) (t : DbfsTimeSpec)
    (permission : DbfsPermission) (target_path : Option String) (dev : Option UInt32) (s s₀ : Sys)
    (attr : DbfsAttr) (hty : permission &&& DbfsPermission.S_IFMT = DbfsPermission.S_IFREG)
    (hnew : dbfs_common_create dir name uid gid t permission target_path dev s = (.Ok attr, s₀))
    (calls : List (ContentCall × Scratch)) (size offset : Nat) (buf : Bytes)
    (hsize : (after_run attr.ino s₀ calls).db.usize attr.ino .size = some size)
    (hbound : size < (2 ^ 32 - 1) * SLICE_SIZE) (halign : offset % SLICE_SIZE = 0)
    (hbuf : buf.length < 2 ^ 63) :
    ReadsLength (after_run attr.ino s₀ calls) attr.ino buf offset size ↔
      size ≤ offset ∨ buf.length = 0 ∨
        ReachesEnd ((after_run attr.ino s₀ calls).db.slices attr.ino) size offset buf.length := by
  have hregulated := (create_new_file hty hnew).regulated.run calls
  have hholey : Holey (after_run attr.ino s₀ calls).db attr.ino size :=
    ⟨hsize, hbound, hregulated.sliced, hregulated.keys⟩
  exact hholey.reads_length_iff buf halign hbuf

end runs

/-! ## A file that has only been grown -/

section sample

attribute [local instance] sli512_features

/-- A new file is grown to one slice, of which nothing is stored. -/
def grown_only : Sys := after_run 2 with_new_file.2 [(.truncate 0 0 .default 512, filled_with 0)]

theorem grown_file_reads_short :
    grown_only.db.usize 2 .size = some 512 ∧
      (dbfs_common_read 2 [9] 0 grown_only).1 = .Ok (0, [9]) ∧
      ¬ ReadsLength grown_only 2 [9] 0 512 := by
  have hread : (dbfs_common_read 2 [9] 0 grown_only).1 = .Ok (0, [9]) := by decide +kernel
  refine ⟨by decide +kernel, hread, ?_⟩
  rintro ⟨b, h⟩
  have := hread.symm.trans (congrArg Prod.fst h)
  revert this
  simp

/-- Three bytes are written, and two of them read. -/
theorem written_file_reads_in_full :
    ReadsLength (after_run 2 with_new_file.2 [(.write 0 [1, 2, 3], filled_with 0)]) 2 [0, 0] 0
      3 := by
  refine (read_length_iff 1 "f" 0 0 .default (DbfsPermission.S_IFREG ||| 0o644) none none
    (fs_type.new_fs 0 0 .default) with_new_file.2 new_file_attr (by decide) with_new_file_eq
    [(.write 0 [1, 2, 3], filled_with 0)] 3 0 [0, 0] (by decide +kernel) (by decide) (by decide)
    (by decide)).mpr
    (.inr (.inr (.inl ⟨by decide +kernel, 0, by decide, by decide, ?_, by decide⟩)))
  decide +kernel

end sample

end dbfs2
