-- A file as a list of bytes. As long as no write leaves a gap behind the end, the
-- slices hold the list, whatever the memory was that they were put together in.
import Dbfs2.FileRead
import Dbfs2.FsType

namespace dbfs2

open common Tx inode file

/-! ## The list and the slices -/

section contents

variable [Features] {db db' : Db} {n : UInt64} {l : Bytes}

/-- File `n` holds the bytes `l`. -/
structure Holds (db : Db) (n : UInt64) (l : Bytes) : Prop where
  dense : Dense db n l.length
  whole : Slices.Whole SLICE_SIZE (db.slices n)
  bytes (p : Nat) : p < l.length → Slices.get SLICE_SIZE (db.slices n) p = l[p]?

theorem NewFile.holds (h : NewFile db n) : Holds db n [] where
  dense :=
    { size_eq := h.size
      bound := Nat.mul_pos (by decide) SLICE_SIZE_pos
      present := fun i hi => by simp at hi
      keys := sliceKeys_of_classes fun k v hv => by
        by_contra hk
        rw [not_or, not_exists] at hk
        rw [h.get k hk.1] at hv
        cases hv }
  whole := by
    intro i v hv
    rw [h.slices] at hv
    cases hv
  bytes p hp := by simp at hp

omit [Features] in
/-- A change of the file brings no key under the beginning of the slice keys but slices. -/
theorem FileOnly.sliceKeys (h : FileOnly n db db') (hkeys : SliceKeys db n) : SliceKeys db' n := by
  intro k v hv hk
  by_cases hslice : ∃ i, k = slice_key i
  · obtain ⟨i, rfl⟩ := hslice
    exact slice_key_small i
  · refine hkeys k v ?_ hk
    rw [← hv, h.get n k fun _ => ⟨?_, fun i e => hslice ⟨i, e⟩⟩]
    rintro f rfl
    exact field_not_slice f hk

omit [Features] in
theorem ContentOnly.file (h : ContentOnly n db db') : FileOnly n db db' :=
  ⟨h.has, fun m k hk => h.get m k fun e => ⟨(hk e).1 .size, (hk e).2⟩⟩

/-- A write that starts no later than the end lays its buffer over the list. -/
theorem Holds.write (h : Holds db n l) (scratch : Scratch) {offset : Nat} {buf : Bytes}
    (hbuf : buf ≠ []) (hoff : offset ≤ l.length)
    (hmax : (Slices.overlay l offset buf).length < (2 ^ 32 - 1) * SLICE_SIZE) :
    ∃ db', write_tx n buf offset scratch db = .Ok (buf.length, db') ∧
      Holds db' n (Slices.overlay l offset buf) := by
  have hS := SLICE_SIZE_pos
  have hlen : (Slices.overlay l offset buf).length = max l.length (offset + buf.length) :=
    Slices.length_overlay hoff
  have hpos := List.length_pos_iff.mpr hbuf
  have hroom : offset + max 1 buf.length ≤ 2 ^ 32 * SLICE_SIZE := by omega
  obtain ⟨db', hrun, hslices⟩ := write_tx_spec (s := scratch) h.dense.size_eq h.whole hroom
  obtain ⟨honly, _, _, size, hsize, hsize'⟩ := write_tx_only hrun
  cases h.dense.size_eq.symm.trans hsize
  refine ⟨db', hrun, ⟨?_, hmax, ?_, honly.file.sliceKeys h.dense.keys⟩, ?_, ?_⟩
  · rw [hsize', hlen]
  · -- a slice before the new end was there, or is one of those written to
    intro i hi
    rw [hslices]
    by_cases ht : Slices.Touched SLICE_SIZE offset buf.length i
    · refine ⟨_, if_pos ht, Slices.whole_write hS h.whole scratch.length_slice i _ (if_pos ht)⟩
    · rw [Slices.write, if_neg ht]
      apply h.dense.present i
      by_contra hge
      refine ht ⟨?_, .inr ?_⟩
      · exact Nat.div_le_of_le_mul (by rw [Nat.mul_comm]; omega)
      · omega
  · rw [hslices]
    exact Slices.whole_write hS h.whole scratch.length_slice
  · intro p hp
    rw [hslices, Slices.get_write hS h.whole scratch.length_slice, Slices.getElem?_overlay hoff]
    split_ifs with hin ht
    · rfl
    · have hp' : p < l.length := by omega
      have hblock := Nat.div_mul_le_self p SLICE_SIZE
      obtain ⟨v, hv, _⟩ := h.dense.present (p / SLICE_SIZE) (by omega)
      rw [← h.bytes p hp', Slices.get, hv]
      rfl
    · exact h.bytes p (by omega)

/-- A read at the start of a slice gives the bytes of the list. -/
theorem Holds.read (h : Holds db n l) {buf : Bytes} {offset : Nat} (hbuf : buf.length < 2 ^ 63)
    (hoff : SLICE_SIZE ∣ offset) :
    ∃ b, read_tx n buf offset db = .Ok ((((l.drop offset).take buf.length).length, b), db) ∧
      b.take ((l.drop offset).take buf.length).length = (l.drop offset).take buf.length := by
  rcases Nat.lt_or_ge offset l.length with hlt | hge
  · have hfrom : read_from offset = offset := by
      rw [read_from_eq, Nat.mod_eq_zero_of_dvd hoff]
      exact ite_self offset
    have hcount : ((l.drop offset).take buf.length).length =
        min buf.length (l.length - read_from offset) := by
      rw [List.length_take, List.length_drop, hfrom]
    obtain ⟨b, hread, hfilled⟩ := h.dense.read buf hbuf hlt
    refine ⟨b, ?_, ?_⟩
    · rw [hcount]
      exact hread
    · apply List.ext_getElem?
      intro k
      rw [hcount, hfilled.getElem?_take, hfrom, List.getElem?_take, List.getElem?_drop]
      split_ifs with hk hk' hk'
      · exact h.bytes _ (by omega)
      · omega
      · rw [List.getElem?_eq_none (by omega)]
      · rfl
  · refine ⟨buf, ?_, ?_⟩
    · rw [List.drop_eq_nil_of_le hge, read_past h.dense.size_eq buf hge, List.take_nil,
        List.length_nil]
    · rw [List.drop_eq_nil_of_le hge]
      simp

end contents

/-! ## Runs of writes -/

/-- One write, with the memory that it was given. -/
structure WriteCall [Features] where
  offset : Nat
  buf : Bytes
  scratch : Scratch

/-- The counts that a row of writes returns. -/
def run_writes [Features] (n : UInt64) : List WriteCall → Fs (List Nat)
  | [] => pure []
  | call :: calls => do
    let count ← dbfs_common_write n call.buf call.offset call.scratch
    let counts ← run_writes n calls
    pure (count :: counts)

/-- The list after a row of writes. -/
def list_after [Features] (l : Bytes) (calls : List WriteCall) : Bytes :=
  calls.foldl (fun l call => Slices.overlay l call.offset call.buf) l

/-- No write of the row is empty or starts beyond the end it finds. -/
def NoGaps [Features] : Bytes → List WriteCall → Prop
  | _, [] => True
  | l, call :: calls => call.buf ≠ [] ∧ call.offset ≤ l.length ∧
    NoGaps (Slices.overlay l call.offset call.buf) calls

theorem length_le_list_after [Features] {l : Bytes} {calls : List WriteCall} (h : NoGaps l calls) :
    l.length ≤ (list_after l calls).length := by
  induction calls generalizing l with
  | nil => exact le_refl _
  | cons call calls ih =>
    obtain ⟨_, hoff, hrest⟩ := h
    refine le_trans ?_ (ih hrest)
    rw [Slices.length_overlay hoff]
    exact Nat.le_max_left _ _

/-- The writes of a row all return, and the file holds the list after them. -/
theorem Holds.run [Features] {l : Bytes} {calls : List WriteCall} {n : UInt64} {s : Sys}
    (h : Holds s.db n l)
    (hgaps : NoGaps l calls) (hmax : (list_after l calls).length < (2 ^ 32 - 1) * SLICE_SIZE) :
    ∃ s', run_writes n calls s = (.Ok (calls.map (·.buf.length)), s') ∧
      Holds s'.db n (list_after l calls) := by
  induction calls generalizing l s with
  | nil => exact ⟨s, rfl, h⟩
  | cons call calls ih =>
    obtain ⟨hbuf, hoff, hrest⟩ := hgaps
    obtain ⟨db₁, htx, h₁⟩ := h.write call.scratch hbuf hoff
      (lt_of_le_of_lt (length_le_list_after hrest) hmax)
    obtain ⟨s', hrun, h'⟩ := ih (s := { s with db := db₁ }) h₁ hrest hmax
    refine ⟨s', ?_, h'⟩
    simp only [run_writes, Fs.bind_ok, Fs.pure_ok, dbfs_common_write, Fs.write_ok]
    exact ⟨_, _, ⟨db₁, htx, rfl⟩, _, s', hrun, rfl, rfl⟩

/-- What is written to a new file without gaps is what is read from it. -/
theorem new_file_round_trip [Features] (dir : UInt64) (name : String) (uid gid : UInt32)
    (t : DbfsTimeSpec) (permission : DbfsPermission) (target_path : Option String)
    (dev : Option UInt32) (s s₀ : Sys) (attr : DbfsAttr)
    (hty : permission &&& DbfsPermission.S_IFMT = DbfsPermission.S_IFREG)
    (hnew : dbfs_common_create dir name uid gid t permission target_path dev s = (.Ok attr, s₀))
    (calls : List WriteCall) (hgaps : NoGaps [] calls)
    (hmax : (list_after [] calls).length < (2 ^ 32 - 1) * SLICE_SIZE) :
    ∃ s', run_writes attr.ino calls s₀ = (.Ok (calls.map (·.buf.length)), s') ∧
      s'.db.usize attr.ino .size = some (list_after [] calls).length ∧
      ∀ (buf : Bytes) (offset : Nat), buf.length < 2 ^ 63 → SLICE_SIZE ∣ offset →
        ∃ b, dbfs_common_read attr.ino buf offset s' =
            (.Ok ((((list_after [] calls).drop offset).take buf.length).length, b), s') ∧
          b.take (((list_after [] calls).drop offset).take buf.length).length =
            ((list_after [] calls).drop offset).take buf.length := by
  obtain ⟨s', hrun, h⟩ := (create_new_file hty hnew).holds.run hgaps hmax
  refine ⟨s', hrun, h.dense.size_eq, fun buf offset hbuf hoff => ?_⟩
  obtain ⟨b, hread, hbytes⟩ := h.read hbuf hoff
  exact ⟨b, Fs.read_ok.mpr ⟨⟨_, hread⟩, rfl⟩, hbytes⟩

/-! ## Two writes to a new file -/

section sample

attribute [local instance] sli512_features

/-- A file system of root with a new file, inode 2. -/
def with_new_file : DbfsResult DbfsAttr × Sys :=
  dbfs_common_create 1 "f" 0 0 .default (DbfsPermission.S_IFREG ||| 0o644) none none
    (fs_type.new_fs 0 0 .default)

def new_file_attr : DbfsAttr :=
  { ino := 2, size := 0, blocks := 0, atime := .default, mtime := .default, ctime := .default,
    crtime := .default, kind := .RegularFile, perm := DbfsPermission.S_IFREG ||| 0o644, nlink := 1,
    uid := 0, gid := 0, rdev := 0, blksize := 512, padding := 0, flags := 0 }

theorem with_new_file_eq : with_new_file = (.Ok new_file_attr, with_new_file.2) :=
  Prod.ext (by decide +kernel) rfl

theorem three_bytes_and_two_behind_them :
    ∃ s', run_writes 2 [⟨0, [1, 2, 3], filled_with 7⟩, ⟨3, [4, 5], filled_with 8⟩] with_new_file.2 =
        (.Ok [3, 2], s') ∧ s'.db.usize 2 .size = some 5 ∧
      ∃ b, dbfs_common_read 2 [0, 0, 0, 0, 0, 0] 0 s' = (.Ok (5, b), s') ∧
        b.take 5 = [1, 2, 3, 4, 5] := by
  obtain ⟨s', hrun, hsize, hread⟩ := new_file_round_trip 1 "f" 0 0 .default
    (DbfsPermission.S_IFREG ||| 0o644) none none (fs_type.new_fs 0 0 .default) with_new_file.2
    new_file_attr (by decide) with_new_file_eq
    [⟨0, [1, 2, 3], filled_with 7⟩, ⟨3, [4, 5], filled_with 8⟩]
    ⟨by decide, by decide, by decide, by decide, trivial⟩ (by decide)
  exact ⟨s', hrun, hsize, hread [0, 0, 0, 0, 0, 0] 0 (by decide) (by decide)⟩

end sample

end dbfs2
