-- The two renames. The one of the rvfs front end puts the number of the new directory
-- into the entry, writes the sizes as text and does nothing for the new name inside one
-- directory, so it never leaves what the other one leaves.
import Dbfs2.NameRuns
import Dbfs2.Rvfs

namespace dbfs2

open common Tx inode fs_type

/-! ## Sizes as text -/

theorem as_bytes_digits {l : List Char} (h : ∀ c ∈ l, c.isDigit = true) :
    as_bytes (String.ofList l) = l.map fun c => UInt8.ofNat c.toNat := by
  induction l with
  | nil => rfl
  | cons c l ih =>
    have hc : c.val.toNat ≤ 127 := by
      have hc := h c List.mem_cons_self
      simp only [Char.isDigit, Bool.and_eq_true, decide_eq_true_eq] at hc
      have : c.val.toNat ≤ 57 := UInt32.le_iff_toNat_le.mp hc.2
      omega
    have hone : String.utf8EncodeChar c = [UInt8.ofNat c.toNat] := by
      simp only [String.utf8EncodeChar, hc, if_true]
      rfl
    have ih := ih fun d hd => h d (List.mem_cons_of_mem _ hd)
    simp only [as_bytes, String.toByteArray_ofList] at ih ⊢
    rw [List.utf8Encode_cons, List.utf8Encode_singleton, hone, List.map_cons, ← ih]
    simp

theorem size_text_eq {x : Nat} (hx : x < 2 ^ 64) :
    size_text x = (Nat.toDigits 10 x).map fun c => UInt8.ofNat c.toNat := by
  have hnat : (UInt64.ofNat x).toNat = x := by
    rw [UInt64.toNat_ofNat', Nat.mod_eq_of_lt hx]
  have hdigit : ∀ c ∈ Nat.toDigits 10 x, c.isDigit = true := fun c hc =>
    Nat.isDigit_of_mem_toDigits (by omega) (by omega) hc
  rw [size_text, format_usize, hnat, ← as_bytes_digits hdigit]
  rfl

/-- A size in text that decodes at all decodes to a larger number: it has eight digits, and the
first of them is a large byte. -/
theorem usize_size_text {x y : Nat} (hx : x < 2 ^ 64) (h : common.usize (size_text x) = some y) :
    x < y := by
  rw [size_text_eq hx] at h
  unfold common.usize at h
  split_ifs at h with hlen
  rw [List.length_map] at hlen
  have hlt : x < 10 ^ 8 := (Nat.length_toDigits_le_iff (by omega) (by omega)).mp hlen.le
  rcases hl : Nat.toDigits 10 x with _ | ⟨c, cs⟩
  · rw [hl] at hlen
    cases hlen
  · have hc : c.isDigit = true :=
      Nat.isDigit_of_mem_toDigits (by omega) (by omega) (hl ▸ List.mem_cons_self)
    simp only [Char.isDigit, Bool.and_eq_true, decide_eq_true_eq] at hc
    have h1 : 48 ≤ c.toNat := UInt32.le_iff_toNat_le.mp hc.1
    have h2 : c.toNat ≤ 57 := UInt32.le_iff_toNat_le.mp hc.2
    have hbyte : (UInt8.ofNat c.toNat).toNat = c.toNat := by
      rw [UInt8.toNat_ofNat']
      omega
    rw [hl, List.length_cons] at hlen
    rw [hl, Option.some.injEq] at h
    simp only [List.map_cons, BigEndian.decode, hbyte, List.length_map] at h
    rw [show cs.length = 7 by omega] at h
    omega

/-! ## The two databases -/

section agreement

variable {s : Sys} {old_dir new_dir : Inode} {old_name new_name : String}

/-- Both renames leave the same entries and sizes in the directories; the new name has the inode of
the old one, which is gone. -/
structure RenamesAgree (s : Sys) (old_dir new_dir : Inode) (old_name new_name : String)
    (c_time : DbfsTimeSpec) : Prop where
  entries (d : UInt64) (name : String) : s.db.IsDir d →
    (dbfs_rename old_dir old_name new_dir new_name s).2.db.entry d name =
      (dbfs_common_rename 0 0 old_dir.number old_name new_dir.number new_name 0 c_time
        s).2.db.entry d name
  sizes (d : UInt64) : s.db.IsDir d →
    (dbfs_rename old_dir old_name new_dir new_name s).2.db.usize d .size =
      (dbfs_common_rename 0 0 old_dir.number old_name new_dir.number new_name 0 c_time
        s).2.db.usize d .size
  bound : (dbfs_rename old_dir old_name new_dir new_name s).2.db.entry new_dir.number new_name =
    s.db.entry old_dir.number old_name
  gone : (dbfs_rename old_dir old_name new_dir new_name s).2.db.entry old_dir.number old_name = none

/-- The common rename onto a free name in another directory makes that directory larger by one, or
does nothing. -/
theorem common_rename_size {uid gid : UInt32} {old_dir new_dir : UInt64} {c_time : DbfsTimeSpec}
    {size : Nat} (hne : old_dir ≠ new_dir)
    (hfree : s.db.get new_dir (generate_data_key new_name) = none)
    (hsize : s.db.usize new_dir .size = some size) :
    ∃ y ≤ size + 1, (dbfs_common_rename uid gid old_dir old_name new_dir new_name 0 c_time
      s).2.db.usize new_dir .size = some y := by
  rcases rename_db (s := s) with h | ⟨old, new, ⟨_, hold⟩, ⟨_, hnew⟩, htx⟩
  · rw [h]
    exact ⟨size, by omega, hsize⟩
  · have hnone : new.number = none := by
      obtain ⟨_, _, _, ⟨hnone, _⟩ | ⟨i, _, hi, _⟩⟩ := rename_new_tx_spec hnew
      · exact hnone
      · rw [Db.entry, Db.ref, hfree] at hi
        cases hi
    obtain ⟨a, b, _, _, hb, hlt, hdb⟩ := rename_move_tx_spec hnone htx
    cases hsize.symm.trans hb
    refine ⟨size + 1, le_rfl, ?_⟩
    rw [hdb]
    simp [rename_moved, hne, Db.has_of_usize hsize, usize_be (hlt hne)]

/-- The two renames of a name that is there to one that is free never agree, whatever else the
database holds. -/
theorem renames_never_agree (hnd : s.db.IsDir new_dir.number)
    (hold : (s.db.entry old_dir.number old_name).isSome = true)
    (hfree : s.db.get new_dir.number (generate_data_key new_name) = none)
    (c_time : DbfsTimeSpec) :
    ¬ RenamesAgree s old_dir new_dir old_name new_name c_time := by
  intro h
  obtain ⟨i, hi⟩ := Option.isSome_iff_exists.mp hold
  rcases dbfs_rename_state old_dir new_dir old_name new_name s with hs | ⟨dirs, db', htx, hs⟩
  · have hbound := h.bound
    rw [hs, hi, Db.entry, Db.ref, hfree] at hbound
    cases hbound
  · obtain ⟨hhas, ⟨_, rfl⟩ | ⟨hne, a, b, _, _, hb, hlt, rfl⟩⟩ := dbfs_rename_tx_spec htx
    · have hgone := h.gone
      rw [hs] at hgone
      simp [Db.entry, Db.ref, hhas] at hgone
    · obtain ⟨y, hy, hcommon⟩ : ∃ y ≤ b + 1, (dbfs_common_rename 0 0 old_dir.number old_name
          new_dir.number new_name 0 c_time s).2.db.usize new_dir.number .size = some y :=
        common_rename_size (Ne.symm hne) hfree hb
      have hsize := h.sizes new_dir.number hnd
      rw [hs, hcommon] at hsize
      have htext : common.usize (size_text (b + 1)) = some y := by
        simpa [rename_texts, Db.has_of_isDir hnd] using hsize
      have := usize_size_text hlt htext
      omega

end agreement

/-! ## A rename inside one directory -/

section sample

attribute [local instance] sli512_features

def create_f : NameCall :=
  .create 1 "f" .default (DbfsPermission.S_IFREG ||| 0o644) none none

/-- A directory in the root, and a file beside it. -/
def dir_and_file : Sys := ⟨after_calls [create_f, mkdir_d], 4, ∅⟩

theorem dir_and_file_names : Names dir_and_file.db := by
  have hd : NameRun (fun _ => True) (after_calls [mkdir_d]) := mkdir_d_run trivial
  have hf := hd.after create_f ⟨by decide +kernel, by decide, by decide, by decide +kernel,
    .RegularFile, by decide⟩ trivial
  exact hf.names.1

/-- The file `f` of the root is renamed to `g`. One rename does so; the other one leaves `f`, with
the number of the root, and no `g`. -/
theorem renamed_name_is_missing :
    Names dir_and_file.db ∧ dir_and_file.db.entry 1 "f" = some 3 ∧
      dir_and_file.db.get 1 (generate_data_key "g") = none ∧
      (dbfs_common_rename 0 0 1 "f" 1 "g" 0 .default dir_and_file).2.db.entry 1 "g" = some 3 ∧
      (inode.dbfs_rename ⟨1, 3, 2⟩ "f" ⟨1, 3, 2⟩ "g" dir_and_file).1 =
        .Ok (.ok (⟨1, 3, 2⟩, ⟨1, 3, 2⟩)) ∧
      (inode.dbfs_rename ⟨1, 3, 2⟩ "f" ⟨1, 3, 2⟩ "g" dir_and_file).2.db.entry 1 "g" = none ∧
      (inode.dbfs_rename ⟨1, 3, 2⟩ "f" ⟨1, 3, 2⟩ "g" dir_and_file).2.db.entry 1 "f" = some 1 ∧
      ¬ RenamesAgree dir_and_file ⟨1, 3, 2⟩ ⟨1, 3, 2⟩ "f" "g" .default := by
  have hf : (inode.dbfs_rename ⟨1, 3, 2⟩ "f" ⟨1, 3, 2⟩ "g" dir_and_file).2.db.entry 1 "f" =
      some 1 := by decide +kernel
  refine ⟨dir_and_file_names, by decide +kernel, by decide +kernel, by decide +kernel,
    by decide +kernel, by decide +kernel, hf, fun h => ?_⟩
  cases hf.symm.trans h.gone

/-- The file is renamed into the directory. -/
theorem file_into_directory :
    ¬ RenamesAgree dir_and_file ⟨1, 3, 2⟩ ⟨2, 2, 2⟩ "f" "g" .default :=
  renames_never_agree (by decide +kernel) (by decide +kernel) (by decide +kernel) .default

end sample

end dbfs2
