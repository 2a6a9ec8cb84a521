-- Memory that nobody has cleared. A write that makes a new slice stores what the
-- allocator's memory held wherever it does not put a byte of its own. Such bytes are
-- part of the file as soon as its size reaches them.
import Dbfs2.Lockstep
import Dbfs2.RoundTrip

namespace dbfs2

open common Tx inode file

/-! ## The calls on contents -/

/-- The calls that change the contents of a file. -/
inductive ContentCall where
  | write (offset : Nat) (buf : Bytes)
  | truncate (r_uid r_gid : UInt32) (ctime : DbfsTimeSpec) (f_size : UInt64)
  | fallocate (r_uid r_gid : UInt32) (offset size : Nat) (mode : UInt32) (ctime : DbfsTimeSpec)

namespace ContentCall

/-- A call on file `n`; a write is given its memory. -/
def run [Features] (n : UInt64) (scratch : Scratch) : ContentCall → Fs Unit
  | write offset buf => do
    let _ ← dbfs_common_write n buf offset scratch
    pure ()
  | truncate r_uid r_gid ctime f_size => do
    let _ ← dbfs_common_truncate r_uid r_gid n ctime f_size
    pure ()
  | fallocate r_uid r_gid offset size mode ctime =>
    dbfs_common_fallocate r_uid r_gid n offset size mode ctime

/-- The size after a call that succeeds. -/
def new_size (size : Nat) : ContentCall → Nat
  | write offset buf => max size (offset + buf.length)
  | truncate _ _ _ f_size => f_size.toNat
  | fallocate _ _ offset len mode _ =>
    if mode &&& FALLOC_FL_KEEP_SIZE = 0 then max size (offset + len) else size

/-- The call writes the byte at a position. -/
def Covers (p : Nat) : ContentCall → Prop
  | write offset buf => offset ≤ p ∧ p < offset + buf.length
  | _ => False

instance (p : Nat) : (call : ContentCall) → Decidable (call.Covers p)
  | write _ _ => inferInstanceAs (Decidable (_ ∧ _))
  | truncate .. => inferInstanceAs (Decidable False)
  | fallocate .. => inferInstanceAs (Decidable False)

/-- The byte that the call writes at a position that it covers. -/
def byte (p : Nat) : ContentCall → UInt8
  | write offset buf => (buf[p - offset]?).getD 0
  | _ => 0

/-- The call stores slice `i`. -/
def Touches [Features] (i : Nat) : ContentCall → Prop
  | write offset buf => Slices.Touched SLICE_SIZE offset buf.length i
  | _ => False

instance [Features] (i : Nat) : (call : ContentCall) → Decidable (call.Touches i)
  | write _ _ => inferInstanceAs (Decidable (Slices.Touched _ _ _ _))
  | truncate .. => inferInstanceAs (Decidable False)
  | fallocate .. => inferInstanceAs (Decidable False)

end ContentCall

/-- The byte of a file at a position; what is not stored reads as 0. -/
def Db.byte [Features] (db : Db) (n : UInt64) (p : Nat) : UInt8 :=
  (Slices.get SLICE_SIZE (db.slices n) p).getD 0

namespace ContentCall

section step

variable [Features] {n : UInt64} {call : ContentCall} {scratch : Scratch} {s s' : Sys}

/-- A call that fails changes nothing. -/
theorem run_atomic (call : ContentCall) (scratch : Scratch) : Fs.Atomic (call.run n scratch) := by
  cases call with
  | write offset buf => exact .discard (.write _)
  | truncate r_uid r_gid ctime f_size =>
    exact .discard (.after (truncate_attr_state r_uid r_gid n) fun attr => .write _)
  | fallocate r_uid r_gid offset len mode ctime => exact .write _

/-- What a call does to the bytes: those it covers are its own, those of a slice that it stores
for the first time are those of the memory it was given, all others stay. -/
theorem run_ok {size : Nat} (hsize : s.db.usize n .size = some size)
    (hlt : size < 2 ^ 32 * SLICE_SIZE) (hfits : call.new_size size < 2 ^ 32 * SLICE_SIZE)
    (hsliced : s.db.Sliced n) (h : call.run n scratch s = (.Ok (), s')) :
    s'.db.usize n .size = some (call.new_size size) ∧
      ∀ p < call.new_size size, s'.db.byte n p =
        if call.Covers p then call.byte p
        else if call.Touches (p / SLICE_SIZE) ∧ s.db.slices n (p / SLICE_SIZE) = none then
          ((scratch.slice (p / SLICE_SIZE))[p % SLICE_SIZE]?).getD 0
        else s.db.byte n p := by
  have hS := SLICE_SIZE_pos
  have hwhole := whole_slices.mpr hsliced
  cases call with
  | write offset buf =>
    simp only [run, dbfs_common_write, Fs.bind_ok, Fs.write_ok, Fs.pure_ok] at h
    obtain ⟨_, _, ⟨db', htx, rfl⟩, _, rfl⟩ := h
    obtain ⟨_, _, _, size', hsize', hnew⟩ := write_tx_only htx
    cases hsize.symm.trans hsize'
    simp only [new_size] at hfits
    obtain ⟨db'', htx', hslices⟩ := write_tx_spec (s := scratch) hsize hwhole
      (show offset + max 1 buf.length ≤ 2 ^ 32 * SLICE_SIZE by omega)
    cases htx.symm.trans htx'
    refine ⟨hnew, fun p _ => ?_⟩
    rw [Db.byte, hslices, Slices.get_write hS hwhole scratch.length_slice]
    by_cases hin : offset ≤ p ∧ p < offset + buf.length
    · have hcovers : (write offset buf).Covers p := hin
      rw [if_pos hin, if_pos hcovers]
      rfl
    · have hcovers : ¬ (write offset buf).Covers p := hin
      rw [if_neg hin, if_neg hcovers]
      by_cases ht : Slices.Touched SLICE_SIZE offset buf.length (p / SLICE_SIZE)
      · rw [if_pos ht]
        rcases hv : s.db.slices n (p / SLICE_SIZE) with _ | v
        · rw [if_pos ⟨ht, rfl⟩]
          rfl
        · rw [if_neg (by simp), Db.byte, Slices.get, hv]
          rfl
      · rw [if_neg ht, if_neg fun e => ht e.1]
        rfl
  | truncate r_uid r_gid ctime f_size =>
    simp only [run, dbfs_common_truncate, Fs.bind_ok, Fs.write_ok, Fs.pure_ok] at h
    obtain ⟨_, _, ⟨attr, s₁, hattr, db', htx, rfl⟩, _, rfl⟩ := h
    obtain ⟨rfl, hattr⟩ := truncate_attr_ok hattr
    cases hsize.symm.trans hattr
    refine ⟨(truncate_tx_only htx).2.1, fun p hp => ?_⟩
    simp only [Covers, Touches, false_and, if_false]
    rw [Db.byte, truncate_tx_slices hwhole hlt htx]
    exact congrArg (Option.getD · 0) (Slices.get_cut_of_lt hS hwhole hp)
  | fallocate r_uid r_gid offset len mode ctime =>
    simp only [run, dbfs_common_fallocate, Fs.write_ok] at h
    obtain ⟨db', htx, rfl⟩ := h
    obtain ⟨_, hslices, i_size, hi, hnew, _⟩ := fallocate_tx_only htx
    cases hsize.symm.trans hi
    refine ⟨hnew, fun p _ => ?_⟩
    simp only [Covers, Touches, false_and, if_false]
    rw [Db.byte, hslices]
    rfl

theorem run_lockstep (call : ContentCall) (scratch₁ scratch₂ : Scratch) :
    Fs.Lockstep (Twin n) (call.run n scratch₁) (call.run n scratch₂) := by
  cases call with
  | write offset buf =>
    exact .bind (.write (write_lockstep buf offset scratch₁ scratch₂)) fun _ => .pure ()
  | truncate r_uid r_gid ctime f_size =>
    refine .bind (.bind ?_ fun attr => .write (truncate_lockstep ctime f_size attr)) fun _ =>
      .pure ()
    exact .bind (.map_err _ (.read attr_lockstep)) fun _ => .bind (.ensure _ _) fun _ => .pure _
  | fallocate r_uid r_gid offset len mode ctime =>
    exact .write (fallocate_lockstep r_uid r_gid offset len mode ctime)

/-- Slices keep their full size, whether the call succeeds or not. -/
theorem run_sliced (call : ContentCall) (scratch : Scratch) (hn : s.db.Has n)
    (h : s.db.Sliced n) :
    (call.run n scratch s).2.db.Has n ∧ (call.run n scratch s).2.db.Sliced n := by
  have htwin := (call.run_lockstep scratch scratch s s ⟨.refl n s.db, hn, h, h⟩).2
  exact ⟨htwin.has, htwin.sliced₁⟩

end step

end ContentCall

/-! ## Calls that bring no foreign byte into the file -/

section runs

variable [Features] {n : UInt64} {s s₁ s₂ : Sys} {covered : Nat → Prop}

/-- Of the bytes that the call leaves in a file of `size` bytes without writing them, none is of
a slice that the call stores for the first time, and none behind the end is other than 0. -/
def ContentCall.Clean (db : Db) (n : UInt64) (size : Nat) (call : ContentCall) : Prop :=
  ∀ p < call.new_size size, ¬ call.Covers p →
    (call.Touches (p / SLICE_SIZE) → (db.slices n (p / SLICE_SIZE)).isSome) ∧
      (size ≤ p → db.byte n p = 0)

instance (db : Db) (n : UInt64) (size : Nat) (call : ContentCall) :
    Decidable (call.Clean db n size) :=
  inferInstanceAs (Decidable (∀ p < call.new_size size, ¬ call.Covers p →
    (call.Touches (p / SLICE_SIZE) → (db.slices n (p / SLICE_SIZE)).isSome) ∧
      (size ≤ p → db.byte n p = 0)))

/-- The call is clean, and the file stays in the range of the slice numbers. -/
def ContentCall.Safe (db : Db) (n : UInt64) (call : ContentCall) : Prop :=
  ∀ size, db.usize n .size = some size →
    call.new_size size < 2 ^ 32 * SLICE_SIZE ∧ call.Clean db n size

/-- The state after a row of calls on file `n`, each with the memory that it was given. -/
def after_run (n : UInt64) (s : Sys) (calls : List (ContentCall × Scratch)) : Sys :=
  calls.foldl (fun s c => (c.1.run n c.2 s).2) s

/-- All calls of the row that succeed are safe. -/
def SafeRun (n : UInt64) : Sys → List (ContentCall × Scratch) → Prop
  | _, [] => True
  | s, c :: cs => ((c.1.run n c.2 s).1 = .Ok () → c.1.Safe s.db n) ∧
    SafeRun n (c.1.run n c.2 s).2 cs

/-- Two states in which file `n` has the same bytes, with 0 wherever nothing was written. -/
structure Alike (n : UInt64) (covered : Nat → Prop) (s₁ s₂ : Sys) : Prop where
  twin : Twin n s₁.db s₂.db
  bytes : ∃ size < 2 ^ 32 * SLICE_SIZE, s₁.db.usize n .size = some size ∧
    ∀ p < size, s₁.db.byte n p = s₂.db.byte n p ∧ (¬ covered p → s₁.db.byte n p = 0)

/-- A clean call keeps the bytes that it does not write; behind the old end they are 0. -/
theorem ContentCall.byte_of_clean {call : ContentCall} {scratch : Scratch} {s' : Sys} {size : Nat}
    (hsize : s.db.usize n .size = some size) (hlt : size < 2 ^ 32 * SLICE_SIZE)
    (hsliced : s.db.Sliced n) (hsafe : call.Safe s.db n) (h : call.run n scratch s = (.Ok (), s'))
    {p : Nat} (hp : p < call.new_size size) :
    s'.db.byte n p =
      if call.Covers p then call.byte p else if p < size then s.db.byte n p else 0 := by
  obtain ⟨hfits, hclean⟩ := hsafe size hsize
  rw [(run_ok hsize hlt hfits hsliced h).2 p hp]
  by_cases hcovers : call.Covers p
  · rw [if_pos hcovers, if_pos hcovers]
  · obtain ⟨hstored, hzero⟩ := hclean p hp hcovers
    rw [if_neg hcovers, if_neg hcovers, if_neg]
    · split_ifs with hin
      · rfl
      · exact hzero (not_lt.mp hin)
    · rintro ⟨ht, hnone⟩
      have := hstored ht
      rw [hnone] at this
      cases this

theorem Alike.step (h : Alike n covered s₁ s₂) (call : ContentCall) (scratch₁ scratch₂ : Scratch)
    (h₁ : (call.run n scratch₁ s₁).1 = .Ok () → call.Safe s₁.db n)
    (h₂ : (call.run n scratch₂ s₂).1 = .Ok () → call.Safe s₂.db n) :
    Alike n (fun p => covered p ∨ call.Covers p) (call.run n scratch₁ s₁).2
      (call.run n scratch₂ s₂).2 := by
  obtain ⟨hres, htwin⟩ := call.run_lockstep scratch₁ scratch₂ s₁ s₂ h.twin
  obtain ⟨size, hlt, hsize, hbytes⟩ := h.bytes
  refine ⟨htwin, ?_⟩
  by_cases hok : (call.run n scratch₁ s₁).1 = .Ok ()
  · have hrun₁ : call.run n scratch₁ s₁ = (.Ok (), (call.run n scratch₁ s₁).2) :=
      Prod.ext hok rfl
    have hrun₂ : call.run n scratch₂ s₂ = (.Ok (), (call.run n scratch₂ s₂).2) :=
      Prod.ext (hres ▸ hok) rfl
    have hsafe₁ := h₁ hok
    have hsize₂ : s₂.db.usize n .size = some size := (h.twin.only.usize n .size).trans hsize
    refine ⟨call.new_size size, (hsafe₁ size hsize).1,
      (ContentCall.run_ok hsize hlt (hsafe₁ size hsize).1 h.twin.sliced₁ hrun₁).1, fun p hp => ?_⟩
    rw [ContentCall.byte_of_clean hsize hlt h.twin.sliced₁ hsafe₁ hrun₁ hp,
      ContentCall.byte_of_clean hsize₂ hlt h.twin.sliced₂ (h₂ (hres ▸ hok)) hrun₂ hp]
    split_ifs with hcovers hin
    · exact ⟨rfl, fun hno => absurd (.inr hcovers) hno⟩
    · exact ⟨(hbytes p hin).1, fun hno => (hbytes p hin).2 fun hc => hno (.inl hc)⟩
    · exact ⟨rfl, fun _ => rfl⟩
  · have hstay₁ := (call.run_atomic scratch₁ s₁).resolve_right fun ⟨_, e⟩ => hok e
    have hstay₂ := (call.run_atomic scratch₂ s₂).resolve_right fun ⟨_, e⟩ => hok (hres.trans e)
    rw [hstay₁, hstay₂]
    exact ⟨size, hlt, hsize, fun p hp =>
      ⟨(hbytes p hp).1, fun hno => (hbytes p hp).2 fun hc => hno (.inl hc)⟩⟩

/-- Two safe rows of the same calls keep the files alike. -/
theorem Alike.run {r₁ r₂ : List (ContentCall × Scratch)} (h : Alike n covered s₁ s₂)
    (hcalls : r₁.map Prod.fst = r₂.map Prod.fst) (h₁ : SafeRun n s₁ r₁) (h₂ : SafeRun n s₂ r₂) :
    Alike n (fun p => covered p ∨ ∃ c ∈ r₁, c.1.Covers p) (after_run n s₁ r₁)
      (after_run n s₂ r₂) := by
  induction r₁ generalizing r₂ s₁ s₂ covered with
  | nil =>
    rcases r₂ with _ | ⟨_, _⟩
    · simpa [after_run] using h
    · simp at hcalls
  | cons c₁ r₁ ih =>
    rcases r₂ with _ | ⟨c₂, r₂⟩
    · simp at hcalls
    · obtain ⟨call, scratch₁⟩ := c₁
      obtain ⟨call', scratch₂⟩ := c₂
      simp only [List.map_cons, List.cons.injEq] at hcalls
      obtain ⟨rfl, hcalls⟩ := hcalls
      have hrun := ih (h.step call scratch₁ scratch₂ h₁.1 h₂.1) hcalls h₁.2 h₂.2
      simp only [List.mem_cons, exists_eq_or_imp, ← or_assoc]
      exact hrun

theorem NewFile.alike (h : NewFile s.db n) : Alike n (fun _ => False) s s := by
  have hsliced : s.db.Sliced n := whole_slices.mp h.holds.whole
  refine ⟨⟨.refl n s.db, Db.has_of_usize h.size, hsliced, hsliced⟩, 0,
    Nat.mul_pos (by decide) SLICE_SIZE_pos, h.size, fun p hp => ?_⟩
  omega

/-- Only a clean call keeps the other bytes whatever memory it is given. -/
theorem ContentCall.keeps_iff_clean {call : ContentCall} {size : Nat}
    (hsize : s.db.usize n .size = some size) (hlt : size < 2 ^ 32 * SLICE_SIZE)
    (hfits : call.new_size size < 2 ^ 32 * SLICE_SIZE) (hsliced : s.db.Sliced n)
    (hok : ∀ scratch, (call.run n scratch s).1 = .Ok ()) :
    (∀ scratch, ∀ p < call.new_size size, ¬ call.Covers p →
      (call.run n scratch s).2.db.byte n p = if p < size then s.db.byte n p else 0) ↔
      call.Clean s.db n size := by
  have hrun : ∀ scratch, call.run n scratch s = (.Ok (), (call.run n scratch s).2) :=
    fun scratch => Prod.ext (hok scratch) rfl
  have habsent : ∀ p, s.db.slices n (p / SLICE_SIZE) = none → s.db.byte n p = 0 := by
    intro p hnone
    rw [Db.byte, Slices.get, hnone]
    rfl
  constructor
  · intro hkeeps p hp hcovers
    -- memory full of ones would show
    have hbyte := hkeeps (filled_with 1) p hp hcovers
    rw [(run_ok hsize hlt hfits hsliced (hrun (filled_with 1))).2 p hp, if_neg hcovers] at hbyte
    by_cases hnew : call.Touches (p / SLICE_SIZE) ∧ s.db.slices n (p / SLICE_SIZE) = none
    · have hone : (((filled_with 1).slice (p / SLICE_SIZE))[p % SLICE_SIZE]?).getD 0 = 1 := by
        simp [filled_with, Nat.mod_lt p SLICE_SIZE_pos]
      rw [if_pos hnew, hone, habsent p hnew.2] at hbyte
      simp at hbyte
    · rw [if_neg hnew] at hbyte
      refine ⟨fun ht => ?_, fun hge => ?_⟩
      · rw [Option.isSome_iff_ne_none]
        exact fun hnone => hnew ⟨ht, hnone⟩
      · rw [hbyte, if_neg (not_lt.mpr hge)]
  · intro hclean scratch p hp hcovers
    have hsafe : call.Safe s.db n := by
      intro size' hsize'
      cases hsize.symm.trans hsize'
      exact ⟨hfits, hclean⟩
    rw [byte_of_clean hsize hlt hsliced hsafe (hrun scratch) hp, if_neg hcovers]

end runs

/-- Two safe runs of the same calls on a new file end with the same size and the same bytes,
and with 0 wherever nothing was written. After such a run only a clean call leaves the bytes
that it does not write alone, whatever memory it is given. -/
theorem contents_free_of_scratch [Features] (dir : UInt64) (name : String) (uid gid : UInt32)
    (t : DbfsTimeSpec) (permission : DbfsPermission) (target_path : Option String)
    (dev : Option UInt32) (s s₀ : Sys) (attr : DbfsAttr)
    (hty : permission &&& DbfsPermission.S_IFMT = DbfsPermission.S_IFREG)
    (hnew : dbfs_common_create dir name uid gid t permission target_path dev s = (.Ok attr, s₀))
    (r₁ r₂ : List (ContentCall × Scratch)) (hcalls : r₁.map Prod.fst = r₂.map Prod.fst)
    (h₁ : SafeRun attr.ino s₀ r₁) (h₂ : SafeRun attr.ino s₀ r₂) :
    ∃ size, (after_run attr.ino s₀ r₁).db.usize attr.ino .size = some size ∧
      (after_run attr.ino s₀ r₂).db.usize attr.ino .size = some size ∧
      (∀ p < size, (after_run attr.ino s₀ r₁).db.byte attr.ino p =
          (after_run attr.ino s₀ r₂).db.byte attr.ino p ∧
        ((∀ c ∈ r₁, ¬ c.1.Covers p) → (after_run attr.ino s₀ r₁).db.byte attr.ino p = 0)) ∧
      ∀ (call : ContentCall) scratch₀, call.new_size size < 2 ^ 32 * SLICE_SIZE →
        (call.run attr.ino scratch₀ (after_run attr.ino s₀ r₁)).1 = .Ok () →
        ((∀ scratch, ∀ p < call.new_size size, ¬ call.Covers p →
          (call.run attr.ino scratch (after_run attr.ino s₀ r₁)).2.db.byte attr.ino p =
            if p < size then (after_run attr.ino s₀ r₁).db.byte attr.ino p else 0) ↔
          call.Clean (after_run attr.ino s₀ r₁).db attr.ino size) := by
  obtain ⟨htwin, size, hlt, hsize, hbytes⟩ := (create_new_file hty hnew).alike.run hcalls h₁ h₂
  refine ⟨size, hsize, (htwin.only.usize _ _).trans hsize, fun p hp => ?_, ?_⟩
  · obtain ⟨hsame, hzero⟩ := hbytes p hp
    refine ⟨hsame, fun hno => hzero ?_⟩
    rintro (hfalse | ⟨c, hc, hcovers⟩)
    · exact hfalse
    · exact hno c hc hcovers
  · intro call scratch₀ hfits hok
    apply ContentCall.keeps_iff_clean hsize hlt hfits htwin.sliced₁
    intro scratch
    have hself : Twin attr.ino (after_run attr.ino s₀ r₁).db (after_run attr.ino s₀ r₁).db :=
      ⟨.refl _ _, htwin.has, htwin.sliced₁, htwin.sliced₁⟩
    rw [← (call.run_lockstep scratch₀ scratch _ _ hself).1, hok]

/-! ## A byte that nobody wrote -/

section sample

attribute [local instance] sli512_features

/-- The free list of the allocator is linked through the first eight bytes; the ninth is what the
last user left there. -/
theorem byte_before_a_first_write :
    (after_run 2 with_new_file.2 [(.write 9 [1], filled_with 7)]).db.usize 2 .size = some 10 ∧
      (after_run 2 with_new_file.2 [(.write 9 [1], filled_with 8)]).db.usize 2 .size = some 10 ∧
      (after_run 2 with_new_file.2 [(.write 9 [1], filled_with 7)]).db.byte 2 8 = 7 ∧
      (after_run 2 with_new_file.2 [(.write 9 [1], filled_with 8)]).db.byte 2 8 = 8 := by
  decide +kernel

/-- Two bytes and a third one behind them. -/
def appending (x : UInt8) : List (ContentCall × Scratch) :=
  [(.write 0 [1, 2], filled_with x), (.write 2 [3], filled_with x)]

theorem appending_safe {x : UInt8} (hsize : (after_run 2 with_new_file.2
      [(.write 0 [1, 2], filled_with x)]).db.usize 2 .size = some 2)
    (hclean : (ContentCall.write 2 [3]).Clean (after_run 2 with_new_file.2
      [(.write 0 [1, 2], filled_with x)]).db 2 2) : SafeRun 2 with_new_file.2 (appending x) := by
  refine ⟨fun _ size h => ?_, fun _ size h => ?_, trivial⟩
  · have hzero : with_new_file.2.db.usize 2 .size = some 0 := by decide +kernel
    have hfirst : (ContentCall.write 0 [1, 2]).Clean with_new_file.2.db 2 0 := by decide +kernel
    have hfits : (ContentCall.write 0 [1, 2]).new_size 0 < 2 ^ 32 * SLICE_SIZE := by decide
    cases hzero.symm.trans h
    exact ⟨hfits, hfirst⟩
  · have hfits : (ContentCall.write 2 [3]).new_size 2 < 2 ^ 32 * SLICE_SIZE := by decide
    cases hsize.symm.trans h
    exact ⟨hfits, hclean⟩

theorem appending_hides_the_memory :
    ∃ size, (after_run 2 with_new_file.2 (appending 7)).db.usize 2 .size = some size ∧
      (after_run 2 with_new_file.2 (appending 8)).db.usize 2 .size = some size ∧
      ∀ p < size, (after_run 2 with_new_file.2 (appending 7)).db.byte 2 p =
        (after_run 2 with_new_file.2 (appending 8)).db.byte 2 p := by
  obtain ⟨size, h₁, h₂, hbytes, _⟩ := contents_free_of_scratch 1 "f" 0 0 .default
    (DbfsPermission.S_IFREG ||| 0o644) none none (fs_type.new_fs 0 0 .default) with_new_file.2
    new_file_attr (by decide) with_new_file_eq (appending 7) (appending 8) rfl
    (appending_safe (by decide +kernel) (by decide +kernel))
    (appending_safe (by decide +kernel) (by decide +kernel))
  exact ⟨size, h₁, h₂, fun p hp => (hbytes p hp).1⟩

end sample

end dbfs2
