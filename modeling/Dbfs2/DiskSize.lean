-- The free space of the disk. A file that shrinks gives back whole slices, one that
-- grows is charged bytes, and a write is charged nothing. The books balance as long
-- as what is charged is what would be given back.
import Dbfs2.Scratch
import Mathlib.Algebra.BigOperators.Group.Finset.Basic
import Mathlib.Logic.Relation

namespace dbfs2

open common Tx inode file

section space

variable [Features] {n : UInt64} {call : ContentCall} {scratch : Scratch} {s s' : Sys}

/-! ## What a call is charged -/

/-- The bytes of the slices that are full, which is what shrinking to 0 gives back. -/
def slice_bytes (size : Nat) : Nat := size / SLICE_SIZE * SLICE_SIZE

namespace ContentCall

/-- The bytes that a call on a file of `size` bytes takes off the free space. -/
def charged (size : Nat) : ContentCall → Int
  | write _ _ => 0
  | truncate _ _ _ f_size =>
    if size / SLICE_SIZE < f_size.toNat / SLICE_SIZE then (f_size.toNat : Int) - size
    else -(((size / SLICE_SIZE - f_size.toNat / SLICE_SIZE) * SLICE_SIZE : Nat) : Int)
  | fallocate _ _ offset len _ _ =>
    if size / SLICE_SIZE < (offset + len) / SLICE_SIZE then ((offset + len : Nat) : Int) - size
    else 0

/-- A call that takes a file into a later slice is one that is charged for it, and the new end
has the same place in its slice as the old one. -/
def Balanced (size : Nat) : ContentCall → Prop
  | write offset buf => (offset + buf.length) / SLICE_SIZE ≤ size / SLICE_SIZE
  | truncate _ _ _ f_size => size / SLICE_SIZE < f_size.toNat / SLICE_SIZE →
    f_size.toNat % SLICE_SIZE = size % SLICE_SIZE
  | fallocate _ _ offset len mode _ => size / SLICE_SIZE < (offset + len) / SLICE_SIZE →
    mode &&& FALLOC_FL_KEEP_SIZE = 0 ∧ (offset + len) % SLICE_SIZE = size % SLICE_SIZE

theorem slice_bytes_lt {a b : Nat} (h : a / SLICE_SIZE < b / SLICE_SIZE) :
    slice_bytes a < slice_bytes b ∧ a < b := by
  refine ⟨Nat.mul_lt_mul_of_pos_right h SLICE_SIZE_pos, ?_⟩
  by_contra hge
  have := Nat.div_le_div_right (c := SLICE_SIZE) (not_lt.mp hge)
  omega

/-- An end that is in no later slice adds no slice. -/
theorem slice_bytes_max {size m : Nat} (h : m / SLICE_SIZE ≤ size / SLICE_SIZE) :
    slice_bytes (max size m) = slice_bytes size := by
  rcases Nat.le_total m size with hle | hle
  · rw [Nat.max_eq_left hle]
  · have hdiv := Nat.div_le_div_right (c := SLICE_SIZE) hle
    rw [Nat.max_eq_right hle, slice_bytes, Nat.le_antisymm h hdiv, slice_bytes]

/-- A file that grows into a later slice is charged its new slices exactly when the two ends
have the same place in their slices. -/
theorem growth_eq_iff {size m : Nat} :
    (m : Int) - size = slice_bytes m - slice_bytes size ↔ m % SLICE_SIZE = size % SLICE_SIZE := by
  obtain ⟨hm, _⟩ := Slices.pos_eq SLICE_SIZE_pos (p := m) rfl rfl
  obtain ⟨hsize, _⟩ := Slices.pos_eq SLICE_SIZE_pos (p := size) rfl rfl
  unfold slice_bytes
  omega

/-- A call is balanced when it is charged what its file grows by, in whole slices. -/
theorem charged_eq_iff (size : Nat) (call : ContentCall) :
    call.charged size = slice_bytes (call.new_size size) - slice_bytes size ↔
      call.Balanced size := by
  cases call with
  | write offset buf =>
    simp only [charged, new_size, Balanced]
    rcases Nat.lt_or_ge (size / SLICE_SIZE) ((offset + buf.length) / SLICE_SIZE) with hlt | hge
    · obtain ⟨hbytes, hsize⟩ := slice_bytes_lt hlt
      rw [Nat.max_eq_right (Nat.le_of_lt hsize)]
      omega
    · rw [slice_bytes_max hge]
      omega
  | truncate r_uid r_gid ctime f_size =>
    simp only [charged, new_size, Balanced]
    split_ifs with hlt
    · simp only [growth_eq_iff, hlt, true_imp_iff]
    · have hle := Nat.mul_le_mul_right SLICE_SIZE (not_lt.mp hlt)
      rw [Nat.sub_mul]
      unfold slice_bytes
      omega
  | fallocate r_uid r_gid offset len mode ctime =>
    simp only [charged, new_size, Balanced]
    split_ifs with hlt hkeep hkeep
    · rw [Nat.max_eq_right (Nat.le_of_lt (slice_bytes_lt hlt).2), growth_eq_iff]
      simp only [hlt, hkeep, true_imp_iff, true_and]
    · have := (slice_bytes_lt hlt).2
      simp only [hlt, hkeep, true_imp_iff, false_and, iff_false]
      omega
    · rw [slice_bytes_max (not_lt.mp hlt)]
      simp [hlt]
    · simp [hlt]

/-- What a call that succeeds does to the sizes and to the free space. -/
theorem run_space (h : call.run n scratch s = (.Ok (), s')) :
    ∃ size, s.db.usize n .size = some size ∧ s'.db.usize n .size = some (call.new_size size) ∧
      (∀ m, m ≠ n → s'.db.usize m .size = s.db.usize m .size) ∧
      s.db.disk_size.map (fun d : Nat => (d : Int)) =
        s'.db.disk_size.map fun d : Nat => (d : Int) + call.charged size := by
  cases call with
  | write offset buf =>
    simp only [run, dbfs_common_write, Fs.bind_ok, Fs.write_ok, Fs.pure_ok] at h
    obtain ⟨_, _, ⟨db', htx, rfl⟩, _, rfl⟩ := h
    obtain ⟨honly, _, _, size, hsize, hnew⟩ := write_tx_only htx
    refine ⟨size, hsize, hnew, fun m hm => ?_, ?_⟩
    · rw [Db.usize, honly.get m _ fun e => absurd e hm, ← Db.usize]
    · simp [charged, Db.disk_size, Db.sb, honly.super_blk]
  | truncate r_uid r_gid ctime f_size =>
    simp only [run, dbfs_common_truncate, Fs.bind_ok, Fs.write_ok, Fs.pure_ok] at h
    obtain ⟨_, _, ⟨attr, s₁, hattr, db', htx, rfl⟩, _, rfl⟩ := h
    obtain ⟨rfl, hsize⟩ := truncate_attr_ok hattr
    obtain ⟨honly, hnew, d, d', hd, hd', hspace⟩ := truncate_tx_only htx
    refine ⟨attr.size, hsize, hnew, fun m hm => ?_, ?_⟩
    · rw [Db.usize, honly.get m _ fun e => absurd e hm, ← Db.usize]
    · rw [hd, hd']
      simp only [Option.map_some, Option.some.injEq, charged]
      split_ifs at hspace ⊢ with hlt
      · have := (slice_bytes_lt hlt).2
        omega
      · omega
  | fallocate r_uid r_gid offset len mode ctime =>
    simp only [run, dbfs_common_fallocate, Fs.write_ok] at h
    obtain ⟨db', htx, rfl⟩ := h
    obtain ⟨honly, _, size, hsize, hnew, hspace⟩ := fallocate_tx_only htx
    refine ⟨size, hsize, hnew, fun m hm => ?_, ?_⟩
    · rw [Db.usize, honly.get m _ fun e => absurd e hm, ← Db.usize]
    · simp only [charged]
      split_ifs at hspace ⊢ with hlt
      · obtain ⟨d, d', hd, hd', hspace⟩ := hspace
        have := (slice_bytes_lt hlt).2
        rw [hd, hd', Option.map_some, Option.map_some, Option.some.injEq]
        omega
      · simp [hspace]

end ContentCall

/-! ## Runs -/

/-- One call on one of some files that succeeds, and is balanced. -/
inductive BalancedStep (files : Finset UInt64) : Sys → Sys → Prop where
  | call {n : UInt64} {size : Nat} {s s' : Sys} (call : ContentCall) (scratch : Scratch) :
    n ∈ files → s.db.usize n .size = some size → call.Balanced size →
      call.run n scratch s = (.Ok (), s') → BalancedStep files s s'

/-- The free space and what the files would give back. -/
def Db.books (db : Db) (files : Finset UInt64) : Option Int :=
  db.disk_size.map fun d : Nat => (d : Int) +
    ∑ m ∈ files, (slice_bytes ((db.usize m .size).getD 0) : Int)

theorem BalancedStep.books {files : Finset UInt64} (h : BalancedStep files s s') :
    s'.db.books files = s.db.books files := by
  cases h with
  | @call n size _ _ call scratch hn hsize hbalanced hrun =>
    obtain ⟨size', hsize', hnew, hother, hspace⟩ := ContentCall.run_space hrun
    cases hsize.symm.trans hsize'
    have hcharged := (ContentCall.charged_eq_iff size call).mpr hbalanced
    have hsum : ∑ m ∈ files.erase n, (slice_bytes ((s'.db.usize m .size).getD 0) : Int) =
        ∑ m ∈ files.erase n, (slice_bytes ((s.db.usize m .size).getD 0) : Int) := by
      refine Finset.sum_congr rfl fun m hm => ?_
      rw [hother m (Finset.ne_of_mem_erase hm)]
    unfold Db.books
    rw [← Finset.add_sum_erase files _ hn, ← Finset.add_sum_erase files _ hn, hsum, hsize, hnew,
      Option.getD_some, Option.getD_some]
    rcases hd : s.db.disk_size with _ | d
    · rcases hd' : s'.db.disk_size with _ | d'
      · rfl
      · simp [hd, hd'] at hspace
    · rcases hd' : s'.db.disk_size with _ | d'
      · simp [hd, hd'] at hspace
      · simp only [hd, hd', Option.map_some, Option.some.injEq] at hspace ⊢
        omega

theorem run_books {files : Finset UInt64} (h : Relation.ReflTransGen (BalancedStep files) s s') :
    s'.db.books files = s.db.books files := by
  induction h with
  | refl => rfl
  | tail _ hstep ih => exact hstep.books.trans ih

end space

/-- Two runs of balanced calls that end with the same sizes end with the same free space. A
call that succeeds is balanced exactly when free space and slices add up to what they were. -/
theorem disk_size_by_final_sizes [Features] (s : Sys) :
    (∀ (files : Finset UInt64) (s₁ s₂ : Sys), Relation.ReflTransGen (BalancedStep files) s s₁ →
        Relation.ReflTransGen (BalancedStep files) s s₂ →
        (∀ n ∈ files, s₁.db.usize n .size = s₂.db.usize n .size) →
        s₁.db.disk_size = s₂.db.disk_size) ∧
      ∀ (n : UInt64) (call : ContentCall) (scratch : Scratch) (s' : Sys) (d d' size : Nat),
        call.run n scratch s = (.Ok (), s') → s.db.disk_size = some d →
        s'.db.disk_size = some d' → s.db.usize n .size = some size →
        (d' + slice_bytes (call.new_size size) = d + slice_bytes size ↔ call.Balanced size) := by
  constructor
  · intro files s₁ s₂ h₁ h₂ hsizes
    have hbooks := (run_books h₁).trans (run_books h₂).symm
    have hsum : ∑ m ∈ files, (slice_bytes ((s₁.db.usize m .size).getD 0) : Int) =
        ∑ m ∈ files, (slice_bytes ((s₂.db.usize m .size).getD 0) : Int) :=
      Finset.sum_congr rfl fun m hm => by rw [hsizes m hm]
    rw [Db.books, Db.books, hsum] at hbooks
    refine Option.map_injective ?_ hbooks
    intro a b hab
    have hab : (a : Int) + _ = b + _ := hab
    omega
  · intro n call scratch s' d d' size hrun hd hd' hsize
    obtain ⟨size', hsize', _, _, hspace⟩ := ContentCall.run_space hrun
    cases hsize.symm.trans hsize'
    rw [← ContentCall.charged_eq_iff size call]
    simp only [hd, hd', Option.map_some, Option.some.injEq] at hspace
    omega

/-! ## A byte is lost -/

section sample

attribute [local instance] sli512_features

/-- A new file set to some size, and then back to 0. -/
def grown (f_size : UInt64) : Sys :=
  after_run 2 with_new_file.2 [(.truncate 0 0 .default f_size, filled_with 0)]

def grown_and_cut (f_size : UInt64) : Sys :=
  after_run 2 (grown f_size) [(.truncate 0 0 .default 0, filled_with 0)]

theorem one_byte_lost :
    (ContentCall.truncate 0 0 .default 513).run 2 (filled_with 0) with_new_file.2 =
        (.Ok (), grown 513) ∧
      (ContentCall.truncate 0 0 .default 0).run 2 (filled_with 0) (grown 513) =
        (.Ok (), grown_and_cut 513) ∧
      with_new_file.2.db.usize 2 .size = some 0 ∧
      (grown_and_cut 513).db.usize 2 .size = some 0 ∧
      (grown_and_cut 513).db.disk_size.map (· + 1) = with_new_file.2.db.disk_size := by
  decide +kernel

theorem one_slice_given_back :
    (grown_and_cut 512).db.disk_size = with_new_file.2.db.disk_size := by
  have hgrow : BalancedStep {2} with_new_file.2 (grown 512) :=
    .call (n := 2) (.truncate 0 0 .default 512) (filled_with 0) (by decide)
      (by decide +kernel : with_new_file.2.db.usize 2 .size = some 0) (fun _ => by decide)
      (by decide +kernel)
  have hcut : BalancedStep {2} (grown 512) (grown_and_cut 512) :=
    .call (n := 2) (.truncate 0 0 .default 0) (filled_with 0) (by decide)
      (by decide +kernel : (grown 512).db.usize 2 .size = some 512) (fun h => by revert h; decide)
      (by decide +kernel)
  refine (disk_size_by_final_sizes with_new_file.2).1 {2} _ _ (.tail (.single hgrow) hcut) .refl ?_
  intro n hn
  cases Finset.mem_singleton.mp hn
  decide +kernel

end sample

end dbfs2
