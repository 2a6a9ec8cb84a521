-- Reading. A read walks the stored slices of a key range; in a file without holes it
-- gives the bytes from the place it starts at, which is the offset asked for only in
-- the first slice and at the start of a slice.
import Dbfs2.FileSpec
import Mathlib.Tactic.IntervalCases

namespace dbfs2

open common Tx inode file

/-! ## The range of keys -/

/-- A key that stands between two of one beginning has the same beginning. -/
theorem prefix_of_between {p a b k : Bytes} (h1 : p ++ a ≤ k) (h2 : k < p ++ b) : p <+: k := by
  induction p generalizing k with
  | nil => exact List.nil_prefix
  | cons c p ih =>
    rcases k with _ | ⟨d, k⟩
    · exact absurd h1 (by simp)
    · rw [← not_lt, List.cons_append, List.cons_lt_cons_iff, not_or] at h1
      rw [List.cons_append, List.cons_lt_cons_iff] at h2
      rcases h2 with h2 | ⟨rfl, h2⟩
      · exact absurd h2 h1.1
      · have hle : p ++ a ≤ k := not_lt.mp fun h => h1.2 ⟨rfl, h⟩
        exact List.cons_prefix_cons.mpr ⟨rfl, ih hle h2⟩

/-- Nothing but slices stands under the beginning of their keys. -/
def SliceKeys (db : Db) (n : UInt64) : Prop :=
  ∀ k v, db.get n k = some v → as_bytes "zdata:" <+: k → ∃ i < 2 ^ 32, k = slice_key i

theorem field_not_slice (f : Field) : ¬ as_bytes "zdata:" <+: f.key := by
  have hall : ∀ g ∈ Field.all, ¬ as_bytes "zdata:" <+: g.key := by decide +kernel
  exact hall f f.mem_all

/-- A file with no keys but fields and slices. -/
theorem sliceKeys_of_classes {db : Db} {n : UInt64}
    (h : ∀ k v, db.get n k = some v → (∃ f : Field, k = f.key) ∨ ∃ i, k = slice_key i) :
    SliceKeys db n := by
  intro k v hv hk
  rcases h k v hv with ⟨f, rfl⟩ | ⟨i, rfl⟩
  · exact absurd hk (field_not_slice f)
  · exact slice_key_small i

theorem slice_key_lt {i j : Nat} (hi : i < 2 ^ 32) (hj : j < 2 ^ 32) :
    slice_key i < slice_key j ↔ i < j := by
  rw [slice_key, slice_key, number_lt_iff, UInt32.toNat_ofNat', UInt32.toNat_ofNat',
    Nat.mod_eq_of_lt hi, Nat.mod_eq_of_lt hj]

/-- Those of `len` slices from `first` on that are stored, with their keys. -/
def stored (f : Nat → Option Bytes) (first len : Nat) : List (Bytes × Bytes) :=
  (List.range' first len).filterMap fun i => (f i).map fun v => (slice_key i, v)

theorem stored_some {f : Nat → Option Bytes} {i : Nat} {v : Bytes} (h : f i = some v) (k : Nat) :
    stored f i (k + 1) = (slice_key i, v) :: stored f (i + 1) k := by
  rw [stored, List.range'_succ, List.filterMap_cons, h]
  rfl

theorem stored_none {f : Nat → Option Bytes} {i : Nat} (h : f i = none) (k : Nat) :
    stored f i (k + 1) = stored f (i + 1) k := by
  rw [stored, List.range'_succ, List.filterMap_cons, h]
  rfl

/-- A read walks the stored slices between its ends, in order. -/
theorem range_slices {db : Db} {n : UInt64} (hn : db.Has n) (hkeys : SliceKeys db n)
    {first last : Nat} (hf : first < 2 ^ 32) (hl : last < 2 ^ 32) :
    range n (slice_key first) (slice_key last) db =
      .Ok (stored (db.slices n) first (last - first), db) := by
  obtain ⟨b, hb⟩ := Store.has_iff.mp hn
  suffices h : b.range (slice_key first) (slice_key last) =
      stored (db.slices n) first (last - first) by
    rw [range, hb, ← h]
    rfl
  unfold stored
  apply OrdMap.eq_of_mem_iff (OrdMap.sorted_range b _ _)
  · rw [List.pairwise_filterMap]
    refine (List.pairwise_lt_range' (s := first) (n := last - first)).imp_of_mem ?_
    intro i j hi hj hij x hx y hy
    rw [List.mem_range'_1] at hi hj
    obtain ⟨_, _, rfl⟩ := Option.map_eq_some_iff.mp hx
    obtain ⟨_, _, rfl⟩ := Option.map_eq_some_iff.mp hy
    exact (slice_key_lt (by omega) (by omega)).mpr hij
  · rintro ⟨k, v⟩
    rw [OrdMap.mem_range, List.mem_filterMap]
    constructor
    · rintro ⟨hv, h1, h2⟩
      have hget : db.get n k = some v := Store.get_eq_some.mpr ⟨b, hb, hv⟩
      obtain ⟨i, hi, rfl⟩ := hkeys k v hget (prefix_of_between h1 h2)
      have hfi : first ≤ i := by
        rw [← not_lt, ← slice_key_lt hi hf]
        exact not_lt.mpr h1
      have hil := (slice_key_lt hi hl).mp h2
      refine ⟨i, List.mem_range'_1.mpr (by omega), ?_⟩
      rw [Db.slices_of_lt _ _ hi, hget]
      rfl
    · rintro ⟨i, hi, hv⟩
      rw [List.mem_range'_1] at hi
      have hi32 : i < 2 ^ 32 := by omega
      obtain ⟨w, hw, heq⟩ := Option.map_eq_some_iff.mp hv
      cases heq
      rw [Db.slices_of_lt _ _ hi32] at hw
      obtain ⟨b', hb', hfind⟩ := Store.get_eq_some.mp hw
      cases hb.symm.trans hb'
      refine ⟨hfind, not_lt.mp fun h => ?_, (slice_key_lt hi32 hl).mpr (by omega)⟩
      have := (slice_key_lt hi32 hf).mp h
      omega

/-! ## The walk -/

section walk

variable [Features] {f : Nat → Option Bytes} {buf : Bytes} {size offset start : Nat}

/-- The place in the file where a read starts: `offset` is the offset inside a slice and
`start` the number of the first slice. -/
def read_start (offset start : Nat) : Nat := max offset (start * SLICE_SIZE)

/-- A buffer that has the bytes of the file from `q` on, as far as it is filled. -/
structure Filled (f : Nat → Option Bytes) (q : Nat) (buf : Bytes) (st : Bytes × Nat) : Prop where
  length : st.1.length = buf.length
  fits : st.2 ≤ buf.length
  bytes (k : Nat) : st.1[k]? = if k < st.2 then Slices.get SLICE_SIZE f (q + k) else buf[k]?

omit [Features] in
/-- Where slice `A` takes over from the ones before it: its first byte that is read is byte
`offset - A`, and the buffer is filled up to there. -/
theorem piece_place {offset st A S : Nat} (hoff : offset < S) (hst : st ≤ A)
    (hcase : A = 0 ∨ S ≤ A) :
    (offset - A = 0 ∧ max offset st ≤ A) ∨ (A = 0 ∧ max offset st = offset - A) := by
  rcases hcase with rfl | hA
  · exact .inr ⟨rfl, by omega⟩
  · exact .inl ⟨by omega, by omega⟩

omit [Features] in
theorem piece_count {L q A vo S size bo len : Nat} (hA : A ≤ size) (hbo : bo = min L (A - q))
    (hlen : len = min (L - bo) (min (size - A) S - vo)) (hq : (vo = 0 ∧ q ≤ A) ∨ (A = 0 ∧ q = vo)) :
    bo + len = min L (min size (A + S) - q) := by
  rcases hq with ⟨rfl, hq⟩ | ⟨rfl, rfl⟩
  · rcases Nat.le_total size (A + S) with h | h
    · rw [Nat.min_eq_left h]
      rw [Nat.min_eq_left (by omega : size - A ≤ S)] at hlen
      omega
    · rw [Nat.min_eq_right h]
      rw [Nat.min_eq_right (by omega : S ≤ size - A)] at hlen
      omega
  · rw [Nat.zero_sub, Nat.min_zero] at hbo
    subst hbo
    simp only [hlen, Nat.zero_add, Nat.sub_zero]

theorem read_piece_spec {i : Nat} {v : Bytes} {st : Bytes × Nat} (hoff : offset < SLICE_SIZE)
    (hi : start ≤ i) (hpos : 0 < size) (hsize : i * SLICE_SIZE ≤ size) (hv : f i = some v)
    (hlen : i * SLICE_SIZE < size → v.length = SLICE_SIZE)
    (hst : Filled f (read_start offset start) buf st)
    (hcount : st.2 = min buf.length (min size (i * SLICE_SIZE) - read_start offset start)) :
    ∃ st', read_piece size offset i v st = some st' ∧ Filled f (read_start offset start) buf st' ∧
      st'.2 = min buf.length (min size ((i + 1) * SLICE_SIZE) - read_start offset start) := by
  obtain ⟨b, bo⟩ := st
  have hcase : i * SLICE_SIZE = 0 ∨ SLICE_SIZE ≤ i * SLICE_SIZE := by
    rcases Nat.eq_zero_or_pos i with rfl | hpos
    · left
      simp
    · right
      exact Nat.le_mul_of_pos_left _ hpos
  have hplace := piece_place hoff (Nat.mul_le_mul_right SLICE_SIZE hi) hcase
  obtain ⟨hlength, hfits, hbytes⟩ := hst
  simp only at hlength hfits hbytes hcount
  rw [Nat.min_eq_right hsize] at hcount
  unfold read_start at hcount hbytes ⊢
  unfold read_piece
  simp only [hlength]
  rw [if_pos ⟨hsize, hfits⟩]
  -- `len` bytes come from the slice, from `vo` on
  generalize hvo : offset - i * SLICE_SIZE = vo at hplace
  generalize hl : min (buf.length - bo) (min (size - i * SLICE_SIZE) SLICE_SIZE - vo) = len
  generalize max offset (start * SLICE_SIZE) = q at hplace hcount hbytes
  have hend := piece_count hsize hcount hl.symm hplace
  have hroom : bo + len ≤ b.length := by omega
  have hin : vo + len ≤ SLICE_SIZE := by
    have := Nat.min_le_right (size - i * SLICE_SIZE) SLICE_SIZE
    omega
  have hfrom : vo + len ≤ v.length := by
    rcases Nat.lt_or_ge (i * SLICE_SIZE) size with hlt | hge
    · rw [hlen hlt]
      exact hin
    · -- the file ends where this slice starts
      rw [Nat.sub_eq_zero_of_le hge, Nat.zero_min, Nat.zero_sub, Nat.min_zero] at hl
      omega
  have hchunk : ((v.drop vo).take len).length = len := by
    rw [List.length_take, List.length_drop]
    omega
  have hnext : 0 < len → q + bo = i * SLICE_SIZE + vo := by
    clear hend
    omega
  rw [copy_from_slice, if_pos ⟨hroom, hfrom⟩, Option.map_some]
  refine ⟨_, rfl, ⟨?_, ?_, fun k => ?_⟩, ?_⟩
  · simp only [Slices.length_overlay_of_fits (hchunk ▸ hroom), hlength]
  · simp only
    omega
  · simp only [Slices.getElem?_overlay (show bo ≤ b.length by omega), hchunk]
    by_cases hk : bo ≤ k ∧ k < bo + len
    · have hpos : q + k = i * SLICE_SIZE + (vo + (k - bo)) := by
        have := hnext (by omega)
        omega
      rw [if_pos hk, if_pos hk.2, hpos, Slices.get_pos f i (by omega), hv, Option.bind_some,
        List.getElem?_take, if_pos (by omega), List.getElem?_drop]
    · rw [if_neg hk, hbytes k]
      by_cases hkb : k < bo
      · rw [if_pos hkb, if_pos (by omega)]
      · rw [if_neg hkb, if_neg (by omega)]
  · simp only [Nat.add_mul, Nat.one_mul]
    exact hend

omit [Features] in
theorem slice_key_number {i : Nat} (hi : i < 2 ^ 32) :
    ((after_colon (slice_key i)).bind common.u32).map UInt32.toNat = some i := by
  rw [slice_key, after_colon_number, Option.bind_some, u32_be, Option.map_some, UInt32.toNat_ofNat',
    Nat.mod_eq_of_lt hi]

/-- One turn of the walk, at a slice that is the next one. -/
theorem read_loop_turn {i : Nat} (hi : i < 2 ^ 32) (v : Bytes) (rest : List (Bytes × Bytes))
    (st : Bytes × Nat) : read_loop size offset ((slice_key i, v) :: rest) i st =
      (read_piece size offset i v st).bind fun st =>
        if st.2 = st.1.length then some st else read_loop size offset rest (i + 1) st := by
  obtain ⟨index, hindex, htoNat⟩ := Option.map_eq_some_iff.mp (slice_key_number hi)
  rw [read_loop, hindex]
  simp [htoNat]

/-- The walk over slices that follow one another fills the buffer as far as they go. -/
theorem read_loop_spec {k i : Nat} {st : Bytes × Nat} (hoff : offset < SLICE_SIZE)
    (hi : start ≤ i) (hpos : 0 < size) (h32 : i + k ≤ 2 ^ 32)
    (hsize : ∀ j, j < i + k → j * SLICE_SIZE ≤ size)
    (hf : ∀ j, i ≤ j → j < i + k →
      ∃ v, f j = some v ∧ (j * SLICE_SIZE < size → v.length = SLICE_SIZE))
    (hst : Filled f (read_start offset start) buf st)
    (hcount : st.2 = min buf.length (min size (i * SLICE_SIZE) - read_start offset start)) :
    ∃ st', read_loop size offset (stored f i k) i st = some st' ∧
      Filled f (read_start offset start) buf st' ∧
      st'.2 = min buf.length (min size ((i + k) * SLICE_SIZE) - read_start offset start) := by
  induction k generalizing i st with
  | zero => exact ⟨st, rfl, hst, hcount⟩
  | succ k ih =>
    obtain ⟨v, hv, hlen⟩ := hf i (le_refl _) (by omega)
    obtain ⟨st', hpiece, hst', hcount'⟩ := read_piece_spec hoff hi hpos (hsize i (by omega)) hv
      hlen hst hcount
    rw [stored_some hv, read_loop_turn (by omega), hpiece, Option.bind_some]
    have hmono : (i + 1) * SLICE_SIZE ≤ (i + (k + 1)) * SLICE_SIZE :=
      Nat.mul_le_mul_right _ (by omega)
    split_ifs with hfull
    · refine ⟨st', rfl, hst', ?_⟩
      rw [hst'.length] at hfull
      omega
    · rw [show i + (k + 1) = i + 1 + k by omega]
      exact ih (by omega) (by omega) (fun j hj => hsize j (by omega))
        (fun j h1 h2 => hf j (by omega) (by omega)) hst' hcount'

end walk

/-- A read from the end on gives nothing. -/
theorem read_past [Features] {db : Db} {n : UInt64} {size offset : Nat}
    (hsize : db.usize n .size = some size) (buf : Bytes) (hoff : size ≤ offset) :
    read_tx n buf offset db = .Ok ((0, buf), db) := by
  rw [read_tx, bind_of_ok (get_bucket_ok (u := ()).mpr ⟨Db.has_of_usize hsize, rfl⟩),
    bind_of_ok (read_usize_ok.mpr ⟨hsize, rfl⟩), if_pos hoff]
  rfl

/-- A read from before the end walks over the slices of a range. -/
theorem read_within [Features] {db : Db} {n : UInt64} {size offset : Nat} {buf : Bytes}
    (hsize : db.usize n .size = some size) (hoff : offset < size)
    (hsum : offset + buf.length < 2 ^ 64) :
    read_tx n buf offset db = (do
      let data ← range n (slice_key (offset / SLICE_SIZE))
        (slice_key (min ((offset + buf.length) / SLICE_SIZE + 1) (size / SLICE_SIZE + 1)))
      let st ← unwrap (read_loop size (offset % SLICE_SIZE) data (offset / SLICE_SIZE) (buf, 0))
      pure (st.2, st.1) : Tx (Nat × Bytes)) db := by
  rw [read_tx, bind_of_ok (get_bucket_ok (u := ()).mpr ⟨Db.has_of_usize hsize, rfl⟩),
    bind_of_ok (read_usize_ok.mpr ⟨hsize, rfl⟩), if_neg (by omega),
    bind_of_ok (add_usize_ok.mpr ⟨hsum, rfl, rfl⟩)]

/-- Unless the sum of offset and length has no place in a word. -/
theorem read_beyond [Features] {db : Db} {n : UInt64} {size offset : Nat} {buf : Bytes}
    (hsize : db.usize n .size = some size) (hoff : offset < size)
    (hsum : 2 ^ 64 ≤ offset + buf.length) : read_tx n buf offset db = .Panic := by
  have hover : add_usize offset buf.length db = .Panic := by
    rw [add_usize, if_neg (not_lt.mpr hsum)]
    rfl
  rw [read_tx, bind_of_ok (get_bucket_ok (u := ()).mpr ⟨Db.has_of_usize hsize, rfl⟩),
    bind_of_ok (read_usize_ok.mpr ⟨hsize, rfl⟩), if_neg (by omega), bind_of_panic hover]

/-! ## Files without holes -/

section dense

variable [Features] {db : Db} {n : UInt64} {size : Nat}

/-- A file without holes: every slice up to the end is stored, with its full size. -/
structure Dense (db : Db) (n : UInt64) (size : Nat) : Prop where
  size_eq : db.usize n .size = some size
  bound : size < (2 ^ 32 - 1) * SLICE_SIZE
  present (i : Nat) : i * SLICE_SIZE < size →
    ∃ v, db.slices n i = some v ∧ v.length = SLICE_SIZE
  keys : SliceKeys db n

/-- The place where a read at `offset` starts. -/
def read_from (offset : Nat) : Nat := read_start (offset % SLICE_SIZE) (offset / SLICE_SIZE)

theorem read_from_le (offset : Nat) : read_from offset ≤ offset ∧
    offset / SLICE_SIZE * SLICE_SIZE ≤ read_from offset := by
  have hmod := Nat.mod_le offset SLICE_SIZE
  have hdiv := Nat.div_mul_le_self offset SLICE_SIZE
  unfold read_from read_start
  omega

/-- The slices that a read walks follow one another, and go as far as the read does. -/
theorem Dense.walked (h : Dense db n size) {offset : Nat} (hoff : offset < size) (len : Nat) :
    ∃ k, stored (db.slices n) (offset / SLICE_SIZE) (min ((offset + len) / SLICE_SIZE + 1)
        (size / SLICE_SIZE + 1) - offset / SLICE_SIZE) =
          stored (db.slices n) (offset / SLICE_SIZE) k ∧
      offset / SLICE_SIZE + k ≤ size / SLICE_SIZE + 1 ∧
      (∀ j, offset / SLICE_SIZE ≤ j → j < offset / SLICE_SIZE + k →
        ∃ v, db.slices n j = some v ∧ (j * SLICE_SIZE < size → v.length = SLICE_SIZE)) ∧
      (size ≤ (offset / SLICE_SIZE + k) * SLICE_SIZE ∨
        offset + len ≤ (offset / SLICE_SIZE + k) * SLICE_SIZE) := by
  have hS := SLICE_SIZE_pos
  have hle : offset / SLICE_SIZE ≤ size / SLICE_SIZE := Nat.div_le_div_right (by omega)
  have hle' : offset / SLICE_SIZE ≤ (offset + len) / SLICE_SIZE := Nat.div_le_div_right (by omega)
  -- the number of the last slice of the range
  generalize he : min ((offset + len) / SLICE_SIZE) (size / SLICE_SIZE) = e
  rw [show min ((offset + len) / SLICE_SIZE + 1) (size / SLICE_SIZE + 1) - offset / SLICE_SIZE =
    e - offset / SLICE_SIZE + 1 by omega]
  have hbefore : ∀ j, j < e →
      ∃ v, db.slices n j = some v ∧ (j * SLICE_SIZE < size → v.length = SLICE_SIZE) := by
    intro j hj
    have h1 := Nat.mul_le_mul_right SLICE_SIZE (show j + 1 ≤ size / SLICE_SIZE by omega)
    have h2 := Nat.div_mul_le_self size SLICE_SIZE
    rw [Nat.add_mul, Nat.one_mul] at h1
    obtain ⟨v, hv, hlen⟩ := h.present j (by omega)
    exact ⟨v, hv, fun _ => hlen⟩
  rcases hlast : db.slices n e with _ | v
  · refine ⟨e - offset / SLICE_SIZE, ?_, by omega, fun j _ hj => hbefore j (by omega), .inl ?_⟩
    · rw [stored, List.range'_1_concat, List.filterMap_append,
        show offset / SLICE_SIZE + (e - offset / SLICE_SIZE) = e by omega]
      simp [hlast, stored]
    · rw [show offset / SLICE_SIZE + (e - offset / SLICE_SIZE) = e by omega]
      by_contra hlt
      obtain ⟨v, hv, _⟩ := h.present e (by omega)
      rw [hlast] at hv
      cases hv
  · refine ⟨e - offset / SLICE_SIZE + 1, rfl, by omega, fun j _ hj => ?_, ?_⟩
    · by_cases hje : j < e
      · exact hbefore j hje
      · rw [show j = e by omega]
        refine ⟨v, hlast, fun hlt => ?_⟩
        obtain ⟨w, hw, hlen⟩ := h.present e hlt
        cases hlast.symm.trans hw
        exact hlen
    · rw [show offset / SLICE_SIZE + (e - offset / SLICE_SIZE + 1) = e + 1 by omega, Nat.add_mul,
        Nat.one_mul]
      have h1 := Slices.lt_of_div_le hS (le_refl (size / SLICE_SIZE))
      have h2 := Slices.lt_of_div_le hS (le_refl ((offset + len) / SLICE_SIZE))
      rcases Nat.le_total ((offset + len) / SLICE_SIZE) (size / SLICE_SIZE) with hmin | hmin
      · rw [Nat.min_eq_left hmin] at he
        rw [he] at h2
        exact .inr (by omega)
      · rw [Nat.min_eq_right hmin] at he
        rw [he] at h1
        exact .inl (by omega)

/-- A read of a file without holes gives the bytes from where it starts. -/
theorem Dense.read (h : Dense db n size) (buf : Bytes) (hbuf : buf.length < 2 ^ 63) {offset : Nat}
    (hoff : offset < size) : ∃ b, read_tx n buf offset db =
        .Ok ((min buf.length (size - read_from offset), b), db) ∧
      Filled (db.slices n) (read_from offset) buf
        (b, min buf.length (size - read_from offset)) := by
  have hS := SLICE_SIZE_pos
  have hS_le := SLICE_SIZE_le
  have hn := Db.has_of_usize h.size_eq
  have hblocks : size / SLICE_SIZE < 2 ^ 32 - 1 := (Nat.div_lt_iff_lt_mul hS).mpr h.bound
  have hstart : offset / SLICE_SIZE ≤ size / SLICE_SIZE := Nat.div_le_div_right (by omega)
  obtain ⟨hfrom, hfrom'⟩ := read_from_le offset
  obtain ⟨k, hlist, hk, hstored, hfar⟩ := h.walked hoff buf.length
  have hsizes : ∀ j, j < offset / SLICE_SIZE + k → j * SLICE_SIZE ≤ size := by
    intro j hj
    have h1 := Nat.mul_le_mul_right SLICE_SIZE (show j ≤ size / SLICE_SIZE by omega)
    have h2 := Nat.div_mul_le_self size SLICE_SIZE
    omega
  have hzero : Filled (db.slices n) (read_start (offset % SLICE_SIZE) (offset / SLICE_SIZE)) buf
      (buf, 0) := ⟨rfl, by simp, by simp⟩
  change offset / SLICE_SIZE * SLICE_SIZE ≤
    read_start (offset % SLICE_SIZE) (offset / SLICE_SIZE) at hfrom'
  obtain ⟨⟨b, count⟩, hloop, hfilled, hcount⟩ := read_loop_spec (Nat.mod_lt offset hS)
    (le_refl (offset / SLICE_SIZE)) (by omega) (by omega) hsizes hstored hzero (by
      simp only
      omega)
  have hcount : count = min buf.length (size - read_from offset) := by
    change count = min buf.length
      (min size ((offset / SLICE_SIZE + k) * SLICE_SIZE) - read_from offset) at hcount
    omega
  subst hcount
  have hbound := h.bound
  have hsum : offset + buf.length < 2 ^ 64 := by omega
  have hrange := range_slices hn h.keys (show offset / SLICE_SIZE < 2 ^ 32 by omega)
    (show min ((offset + buf.length) / SLICE_SIZE + 1) (size / SLICE_SIZE + 1) < 2 ^ 32 by omega)
  rw [hlist] at hrange
  refine ⟨b, ?_, hfilled⟩
  rw [read_within h.size_eq hoff hsum, bind_of_ok hrange,
    bind_of_ok (unwrap_ok_iff.mpr ⟨hloop, rfl⟩)]
  rfl

/-! ## A read at an offset against a read from the start -/

/-- The two reads return, and the first gives what is left of the second without its first
`offset` bytes. -/
def ReadAgrees (s : Sys) (n : UInt64) (buf : Bytes) (offset : Nat) (whole : Bytes) : Prop :=
  ∃ count b count₀ b₀, dbfs_common_read n buf offset s = (.Ok (count, b), s) ∧
    dbfs_common_read n whole 0 s = (.Ok (count₀, b₀), s) ∧ count = count₀ - offset ∧
    b.take count = (b₀.take count₀).drop offset

/-- The bytes that a read returns. -/
theorem Filled.getElem?_take {f : Nat → Option Bytes} {q count : Nat} {buf b : Bytes}
    (h : Filled f q buf (b, count)) (k : Nat) :
    (b.take count)[k]? = if k < count then Slices.get SLICE_SIZE f (q + k) else none := by
  rw [List.getElem?_take]
  split_ifs with hk
  · rw [h.bytes k, if_pos hk]
  · rfl

/-- A read from the start gives the file. -/
theorem Dense.read_whole (h : Dense db n size) (buf : Bytes) (hbuf : buf.length < 2 ^ 63) :
    ∃ b, read_tx n buf 0 db = .Ok ((min buf.length size, b), db) ∧
      Filled (db.slices n) 0 buf (b, min buf.length size) := by
  rcases Nat.eq_zero_or_pos size with rfl | hpos
  · refine ⟨buf, ?_, rfl, by simp, by simp⟩
    rw [read_past h.size_eq buf (le_refl 0), Nat.min_zero]
  · have hfrom : read_from 0 = 0 := by simp [read_from, read_start]
    have hread := h.read buf hbuf hpos
    rw [hfrom] at hread
    exact hread

theorem read_from_eq (offset : Nat) : read_from offset =
    if offset < SLICE_SIZE then offset else offset - offset % SLICE_SIZE := by
  obtain ⟨hpos, hlt⟩ := Slices.pos_eq SLICE_SIZE_pos (p := offset) rfl rfl
  unfold read_from read_start
  split_ifs with h
  · rw [Nat.div_eq_of_lt h, Nat.mod_eq_of_lt h]
    omega
  · have hblock : SLICE_SIZE ≤ offset / SLICE_SIZE * SLICE_SIZE :=
      Nat.le_mul_of_pos_left _ (Nat.div_pos (by omega) SLICE_SIZE_pos)
    omega

/-- The two results decide. -/
theorem readAgrees_iff {s : Sys} {buf whole b b₀ : Bytes} {offset count count₀ : Nat}
    (h : read_tx n buf offset s.db = .Ok ((count, b), s.db))
    (h₀ : read_tx n whole 0 s.db = .Ok ((count₀, b₀), s.db)) :
    ReadAgrees s n buf offset whole ↔
      count = count₀ - offset ∧ b.take count = (b₀.take count₀).drop offset := by
  simp only [ReadAgrees, dbfs_common_read, Fs.read_ok, h, h₀]
  constructor
  · rintro ⟨_, _, _, _, ⟨⟨_, h1⟩, _⟩, ⟨⟨_, h2⟩, _⟩, hagree⟩
    cases h1
    cases h2
    exact hagree
  · intro hagree
    exact ⟨count, b, count₀, b₀, ⟨⟨_, rfl⟩, trivial⟩, ⟨⟨_, rfl⟩, trivial⟩, hagree⟩

/-- A read agrees with a read from the start exactly when it starts where it says: past the
end, in the first slice, at the start of a slice, or when the bytes there are the same. -/
theorem read_agrees_iff (s : Sys) (n : UInt64) (size offset : Nat) (buf whole : Bytes)
    (h : Dense s.db n size) (hlen : whole.length = offset + buf.length)
    (hmax : whole.length < 2 ^ 63) :
    ReadAgrees s n buf offset whole ↔
      size ≤ offset ∨ offset < SLICE_SIZE ∨ offset % SLICE_SIZE = 0 ∨
        (offset + buf.length ≤ size ∧ ∀ i < buf.length,
          Slices.get SLICE_SIZE (s.db.slices n) (offset - offset % SLICE_SIZE + i) =
            Slices.get SLICE_SIZE (s.db.slices n) (offset + i)) := by
  obtain ⟨b₀, hread₀, hfilled₀⟩ := h.read_whole whole hmax
  have hmod := Nat.mod_le offset SLICE_SIZE
  by_cases hoff : size ≤ offset
  · rw [readAgrees_iff (read_past h.size_eq buf hoff) hread₀]
    refine iff_of_true ⟨by omega, ?_⟩ (.inl hoff)
    rw [List.take_zero, List.drop_eq_nil_of_le]
    rw [List.length_take]
    omega
  · obtain ⟨b, hread, hfilled⟩ := h.read buf (by omega) (not_le.mp hoff)
    have hfrom := read_from_eq offset
    have hle := (read_from_le offset).1
    have hbytes : b.take (min buf.length (size - read_from offset)) =
        (b₀.take (min whole.length size)).drop offset ↔
        ∀ k, (if k < min buf.length (size - read_from offset) then
            Slices.get SLICE_SIZE (s.db.slices n) (read_from offset + k) else none) =
          if offset + k < min whole.length size then
            Slices.get SLICE_SIZE (s.db.slices n) (offset + k) else none := by
      rw [List.ext_getElem?_iff]
      simp only [List.getElem?_drop, hfilled.getElem?_take, hfilled₀.getElem?_take, Nat.zero_add]
    rw [readAgrees_iff hread hread₀, hbytes]
    by_cases hsame : read_from offset = offset
    · rw [hsame]
      refine iff_of_true ⟨by omega, fun k => ?_⟩ ?_
      · split_ifs <;> first | rfl | omega
      · split_ifs at hfrom with hlt
        · exact .inr (.inl hlt)
        · exact .inr (.inr (.inl (by omega)))
    · -- the read starts before its offset, at the start of the slice
      have hlt : ¬ offset < SLICE_SIZE := by
        intro hlt
        rw [if_pos hlt] at hfrom
        exact hsame hfrom
      rw [if_neg hlt] at hfrom
      have hne : offset % SLICE_SIZE ≠ 0 := by omega
      have hcount : min buf.length (size - read_from offset) = min whole.length size - offset ↔
          offset + buf.length ≤ size := by omega
      simp only [hoff, hlt, hne, false_or, hcount, ← hfrom]
      refine and_congr_right fun hfit => ⟨fun hall i hi => ?_, fun hall k => ?_⟩
      · have := hall i
        rw [if_pos (by omega), if_pos (by omega)] at this
        exact this
      · by_cases hk : k < buf.length
        · rw [if_pos (by omega), if_pos (by omega)]
          exact hall k hk
        · rw [if_neg (by omega), if_neg (by omega)]

end dense

/-! ## A read of the second slice -/

section sample

/-- Two slices, of which the second one starts with 1 and goes on with 2. -/
def two_slices : Db :=
  ((((⟨none, ∅⟩ : Db).create 7).put 7 Field.size.key (be_usize 1024)).put 7 (slice_key 0)
    (List.replicate 512 0)).put 7 (slice_key 1) (1 :: List.replicate 511 2)

attribute [local instance] sli512_features

theorem two_slices_dense : Dense two_slices 7 1024 where
  size_eq := by decide +kernel
  bound := by decide
  present i hi := by
    have hlt : i < 2 := by
      change i * 512 < 1024 at hi
      omega
    interval_cases i
    · exact ⟨List.replicate 512 0, by decide +kernel, by decide +kernel⟩
    · exact ⟨1 :: List.replicate 511 2, by decide +kernel, by decide +kernel⟩
  keys := sliceKeys_of_classes fun k v hv => by
    simp only [two_slices, Db.get_put, Db.get_create] at hv
    split_ifs at hv with h1 h0 hsize
    · exact .inr ⟨1, h1.2.1⟩
    · exact .inr ⟨0, h0.2.1⟩
    · exact .inl ⟨.size, hsize.2.1⟩

theorem second_slice_read_from_its_start :
    Dense two_slices 7 1024 ∧ ¬ ReadAgrees ⟨two_slices, 8, ∅⟩ 7 [0] 513 (List.replicate 514 0) ∧
      dbfs_common_read 7 [0] 513 ⟨two_slices, 8, ∅⟩ = (.Ok (1, [1]), ⟨two_slices, 8, ∅⟩) := by
  have hread : dbfs_common_read 7 [0] 513 ⟨two_slices, 8, ∅⟩ =
      (.Ok (1, [1]), ⟨two_slices, 8, ∅⟩) := by decide +kernel
  have hwhole : dbfs_common_read 7 (List.replicate 514 0) 0 ⟨two_slices, 8, ∅⟩ =
      (.Ok (514, List.replicate 512 0 ++ [1, 2]), ⟨two_slices, 8, ∅⟩) := by decide +kernel
  refine ⟨two_slices_dense, ?_, hread⟩
  rintro ⟨_, _, _, _, h, h₀, _, hbytes⟩
  cases hread.symm.trans h
  cases hwhole.symm.trans h₀
  revert hbytes
  decide +kernel

theorem second_slice_read_at_its_start :
    Dense two_slices 7 1024 ∧
      ReadAgrees ⟨two_slices, 8, ∅⟩ 7 [0, 0] 512 (List.replicate 514 0) :=
  ⟨two_slices_dense, (read_agrees_iff ⟨two_slices, 8, ∅⟩ 7 1024 512 [0, 0] (List.replicate 514 0)
    two_slices_dense (by decide +kernel) (by decide +kernel)).mpr (by decide)⟩

end sample

end dbfs2
