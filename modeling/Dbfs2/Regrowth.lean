-- Shrinking and growing again. A cut clears the rest of its slice and deletes the
-- slices behind it, and growing stores nothing, so that a file shows zeros from the
-- lowest end it had on.
import Dbfs2.Scratch
import Dbfs2.Serial

namespace dbfs2

open common Tx inode file

/-! ## Calls that grow a file -/

namespace ContentCall

/-- The size that a call asks for. -/
def target : ContentCall → Option Nat
  | write _ _ => none
  | truncate _ _ _ f_size => some f_size.toNat
  | fallocate _ _ offset len mode _ =>
    if mode &&& FALLOC_FL_KEEP_SIZE = 0 then some (offset + len) else none

/-- A call on a file of `size` bytes that writes nothing and cuts nothing off. -/
def Grows (size : Nat) : ContentCall → Prop
  | write _ _ => False
  | truncate _ _ _ f_size => size ≤ f_size.toNat
  | fallocate .. => True

theorem new_size_of_grows {size : Nat} {call : ContentCall} (h : call.Grows size) :
    call.new_size size = call.target.toList.foldl max size := by
  cases call with
  | write offset buf => cases h
  | truncate r_uid r_gid ctime f_size => exact (Nat.max_eq_right h).symm
  | fallocate r_uid r_gid offset len mode ctime =>
    simp only [new_size, target]
    split_ifs <;> rfl

end ContentCall

/-- Rows of calls that all succeed and grow file `n`, within the range of the slice numbers. -/
inductive GrowRun [Features] (n : UInt64) : Sys → List ContentCall → Sys → Prop
  | nil (s : Sys) : GrowRun n s [] s
  | cons {s s₁ s₂ : Sys} {call : ContentCall} {scratch : Scratch} {calls : List ContentCall}
      {size : Nat} : s.db.usize n .size = some size → call.Grows size →
      call.new_size size < 2 ^ 32 * SLICE_SIZE → call.run n scratch s = (.Ok (), s₁) →
      GrowRun n s₁ calls s₂ → GrowRun n s (call :: calls) s₂

/-- The greatest of `m` and the sizes that the calls ask for. -/
def grown_size (m : Nat) (calls : List ContentCall) : Nat :=
  (calls.filterMap ContentCall.target).foldl max m

theorem grown_size_cons (m : Nat) (call : ContentCall) (calls : List ContentCall) :
    grown_size m (call :: calls) = grown_size (call.target.toList.foldl max m) calls := by
  unfold grown_size
  rw [List.filterMap_cons]
  rcases call.target with _ | t <;> rfl

/-! ## What a file shows -/

section regrown

variable [Features] {n : UInt64} {db₀ : Db} {s s' : Sys} {m size : Nat}

/-- File `n` has its first `m` bytes as in `db₀`, and zeros from there on. -/
structure Regrown (db₀ : Db) (n : UInt64) (m : Nat) (db : Db) (size : Nat) : Prop where
  size_eq : db.usize n .size = some size
  lt : size < 2 ^ 32 * SLICE_SIZE
  ge : m ≤ size
  sliced : db.Sliced n
  kept (p : Nat) : p < m →
    Slices.get SLICE_SIZE (db.slices n) p = Slices.get SLICE_SIZE (db₀.slices n) p
  zeros (p : Nat) : m ≤ p → Slices.get SLICE_SIZE (db.slices n) p = none ∨
    Slices.get SLICE_SIZE (db.slices n) p = some 0
  none_behind (i : Nat) : m / SLICE_SIZE < i → db.slices n i = none

theorem NoneBehind.slices (h : NoneBehind s.db n) (hsize : s.db.usize n .size = some size) {i : Nat}
    (hi : size / SLICE_SIZE < i) : s.db.slices n i = none := by
  unfold Db.slices
  split_ifs with hlt
  · by_contra hne
    have := h i hlt (Option.isSome_iff_ne_none.mpr hne) size hsize
    omega
  · rfl

/-- A cut starts it. -/
theorem regrown_of_truncate {r_uid r_gid : UInt32} {ctime : DbfsTimeSpec} {f_size : UInt64}
    {attr : DbfsAttr} (hsize : s.db.usize n .size = some size) (hlt : size < 2 ^ 32 * SLICE_SIZE)
    (hsliced : s.db.Sliced n) (hnone : NoneBehind s.db n) (hle : f_size.toNat ≤ size)
    (h : dbfs_common_truncate r_uid r_gid n ctime f_size s = (.Ok attr, s')) :
    Regrown s.db n f_size.toNat s'.db f_size.toNat := by
  have hS := SLICE_SIZE_pos
  have hwhole := whole_slices.mpr hsliced
  have hbehind : ∀ i, size / SLICE_SIZE < i → s.db.slices n i = none := fun i =>
    hnone.slices hsize
  simp only [dbfs_common_truncate, Fs.bind_ok, Fs.write_ok] at h
  obtain ⟨attr₀, s₁, hattr, db', htx, rfl⟩ := h
  obtain ⟨rfl, hattr⟩ := truncate_attr_ok hattr
  cases hsize.symm.trans hattr
  have hslices := truncate_tx_slices hwhole hlt htx
  refine ⟨(truncate_tx_only htx).2.1, lt_of_le_of_lt hle hlt, le_refl _, ?_, fun p hp => ?_,
    fun p hp => ?_, fun i hi => ?_⟩
  · apply whole_slices.mp
    rw [hslices]
    exact Slices.whole_cut hS hwhole
  · rw [hslices]
    exact Slices.get_cut_of_lt hS hwhole hp
  · rw [hslices]
    exact Slices.get_cut_of_le hS hbehind hle hp
  · rw [hslices]
    by_cases hi' : i ≤ attr₀.size / SLICE_SIZE
    · rw [Slices.cut, if_neg (not_lt.mpr (Nat.div_le_div_right hle)), if_pos ⟨hi, hi'⟩]
    · exact Slices.cut_eq_none (hbehind i (not_le.mp hi'))

/-- Growing keeps it, also where it goes through the path that shrinks. -/
theorem Regrown.step {call : ContentCall} {scratch : Scratch} (h : Regrown db₀ n m s.db size)
    (hgrows : call.Grows size) (hlt : call.new_size size < 2 ^ 32 * SLICE_SIZE)
    (hrun : call.run n scratch s = (.Ok (), s')) :
    Regrown db₀ n m s'.db (call.new_size size) := by
  have hS := SLICE_SIZE_pos
  have hwhole := whole_slices.mpr h.sliced
  have hsize := (ContentCall.run_ok h.size_eq h.lt hlt h.sliced hrun).1
  cases call with
  | write offset buf => cases hgrows
  | truncate r_uid r_gid ctime f_size =>
    simp only [ContentCall.run, dbfs_common_truncate, Fs.bind_ok, Fs.write_ok, Fs.pure_ok] at hrun
    obtain ⟨_, _, ⟨attr, s₁, hattr, db', htx, rfl⟩, _, rfl⟩ := hrun
    obtain ⟨rfl, hattr⟩ := truncate_attr_ok hattr
    cases h.size_eq.symm.trans hattr
    have hslices := truncate_tx_slices hwhole h.lt htx
    have hge : m ≤ f_size.toNat := h.ge.trans hgrows
    refine ⟨hsize, hlt, hge, ?_, fun p hp => ?_, fun p hp => ?_, fun i hi => ?_⟩
    · apply whole_slices.mp
      rw [hslices]
      exact Slices.whole_cut hS hwhole
    · rw [hslices, Slices.get_cut_of_lt hS hwhole (by omega)]
      exact h.kept p hp
    · rw [hslices]
      rcases Slices.get_cut p with hsame | hzero
      · rw [hsame]
        exact h.zeros p hp
      · exact hzero
    · rw [hslices]
      exact Slices.cut_eq_none (h.none_behind i hi)
  | fallocate r_uid r_gid offset len mode ctime =>
    simp only [ContentCall.run, dbfs_common_fallocate, Fs.write_ok] at hrun
    obtain ⟨db', htx, rfl⟩ := hrun
    obtain ⟨_, hslices, _⟩ := fallocate_tx_only htx
    have hge : m ≤ (ContentCall.fallocate r_uid r_gid offset len mode ctime).new_size size := by
      have := h.ge
      simp only [ContentCall.new_size]
      split_ifs <;> omega
    refine ⟨hsize, hlt, hge, ?_, ?_, ?_, ?_⟩
    · apply whole_slices.mp
      rw [hslices]
      exact hwhole
    · rw [hslices]
      exact h.kept
    · rw [hslices]
      exact h.zeros
    · rw [hslices]
      exact h.none_behind

theorem Regrown.run {calls : List ContentCall} (h : Regrown db₀ n m s.db size)
    (hrun : GrowRun n s calls s') : Regrown db₀ n m s'.db (grown_size size calls) := by
  induction hrun generalizing size with
  | nil s => exact h
  | cons hsize hgrows hlt hcall _ ih =>
    cases h.size_eq.symm.trans hsize
    have hnext := ih (h.step hgrows hlt hcall)
    rwa [ContentCall.new_size_of_grows hgrows, ← grown_size_cons] at hnext

/-- A file that is cut and then grown any number of times has the greatest of the sizes asked
for. It keeps the bytes before the cut, shows zeros behind it, and has no slice behind its
end. -/
theorem regrown_shows_zeros (n : UInt64) (size : Nat) (r_uid r_gid : UInt32)
    (ctime : DbfsTimeSpec) (f_size : UInt64) (attr : DbfsAttr) (calls : List ContentCall)
    (s s₁ s₂ : Sys) (hsize : s.db.usize n .size = some size) (hlt : size < 2 ^ 32 * SLICE_SIZE)
    (hsliced : s.db.Sliced n) (hnone : NoneBehind s.db n) (hle : f_size.toNat ≤ size)
    (hcut : dbfs_common_truncate r_uid r_gid n ctime f_size s = (.Ok attr, s₁))
    (hgrow : GrowRun n s₁ calls s₂) :
    s₂.db.usize n .size = some (grown_size f_size.toNat calls) ∧
      (∀ p < f_size.toNat, Slices.get SLICE_SIZE (s₂.db.slices n) p =
        Slices.get SLICE_SIZE (s.db.slices n) p) ∧
      (∀ p, f_size.toNat ≤ p → p < grown_size f_size.toNat calls →
        Slices.get SLICE_SIZE (s₂.db.slices n) p = none ∨
          Slices.get SLICE_SIZE (s₂.db.slices n) p = some 0) ∧
      NoneBehind s₂.db n := by
  have hregrown := (regrown_of_truncate hsize hlt hsliced hnone hle hcut).run hgrow
  refine ⟨hregrown.size_eq, hregrown.kept, fun p hp _ => hregrown.zeros p hp,
    fun i hi hsome size' hsize' => ?_⟩
  cases hregrown.size_eq.symm.trans hsize'
  by_contra hlt'
  have hge := Nat.div_le_div_right (c := SLICE_SIZE) hregrown.ge
  have habsent := hregrown.none_behind i (by omega)
  rw [Db.slices_of_lt _ _ hi] at habsent
  rw [habsent] at hsome
  cases hsome

end regrown

/-! ## Cut to one byte and grown to five -/

section sample

attribute [local instance] sli512_features

/-- Three bytes in a slice that was full of sevens. -/
def three_bytes_and_sevens : Sys := after_writes 2 [⟨0, [1, 2, 3], filled_with 7⟩] with_new_file.2

def cut_to_one : Sys := (dbfs_common_truncate 0 0 2 .default 1 three_bytes_and_sevens).2

def grown_to_five : Sys :=
  ((ContentCall.truncate 0 0 .default 5).run 2 (filled_with 0) cut_to_one).2

theorem sevens_are_not_shown :
    Slices.get SLICE_SIZE (three_bytes_and_sevens.db.slices 2) 4 = some 7 ∧
      grown_to_five.db.usize 2 .size = some 5 ∧
      Slices.get SLICE_SIZE (grown_to_five.db.slices 2) 0 = some 1 ∧
      (Slices.get SLICE_SIZE (grown_to_five.db.slices 2) 4 = none ∨
        Slices.get SLICE_SIZE (grown_to_five.db.slices 2) 4 = some 0) := by
  have hnew : NewFile with_new_file.2.db 2 := create_new_file (by decide) with_new_file_eq
  have hsliced : three_bytes_and_sevens.db.Sliced 2 :=
    ((ContentCall.write 0 [1, 2, 3]).run_sliced (filled_with 7) (Db.has_of_usize hnew.size)
      (whole_slices.mp hnew.holds.whole)).2
  have hnone : NoneBehind three_bytes_and_sevens.db 2 :=
    NoneBehind.writes (fun i hi hsome => by
      rw [← Db.slices_of_lt _ _ hi, hnew.slices] at hsome
      cases hsome) _
  have hcut : dbfs_common_truncate 0 0 2 .default 1 three_bytes_and_sevens =
      (.Ok { new_file_attr with size := 1, blocks := 1 }, cut_to_one) :=
    Prod.ext (by decide +kernel) (by rw [cut_to_one])
  have hrun : (ContentCall.truncate 0 0 .default 5).run 2 (filled_with 0) cut_to_one =
      (.Ok (), grown_to_five) := Prod.ext (by decide +kernel) (by rw [grown_to_five])
  have hgrow : GrowRun 2 cut_to_one [.truncate 0 0 .default 5] grown_to_five :=
    GrowRun.cons (show cut_to_one.db.usize 2 .size = some 1 by decide +kernel)
      (show 1 ≤ (5 : UInt64).toNat by decide)
      (show (5 : UInt64).toNat < 2 ^ 32 * SLICE_SIZE by decide +kernel) hrun (.nil _)
  obtain ⟨hsize, hkept, hzeros, _⟩ := regrown_shows_zeros 2 3 0 0 .default 1 _ _ _ _ _
    (by decide +kernel) (by decide) hsliced hnone (by decide) hcut hgrow
  refine ⟨by decide +kernel, hsize, ?_, hzeros 4 (by decide) (by decide)⟩
  rw [hkept 0 (by decide)]
  decide +kernel

end sample

end dbfs2
