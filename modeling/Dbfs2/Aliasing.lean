-- Positions beyond the documented 2^32 slices. The number of a slice is cut to 32 bits
-- in its key, so that positions that lie 2^32 slices apart share their byte; the end of
-- a read is cut the same way, and may come before its start.
import Dbfs2.ReadLength

namespace dbfs2

open common Tx inode file

section sharing

variable [Features] {n : UInt64} {db db' : Db}

/-! ## Positions that share their byte -/

/-- The bytes of 2^32 slices. -/
def ALIAS : Nat := 2 ^ 32 * SLICE_SIZE

/-- The byte under the key of a position. -/
def Db.stored_byte (db : Db) (n : UInt64) (p : Nat) : Option UInt8 :=
  (db.get n (slice_key (p / SLICE_SIZE))).bind (·[p % SLICE_SIZE]?)

omit [Features] in
theorem slice_key_eq_iff {i j : Nat} : slice_key i = slice_key j ↔ i % 2 ^ 32 = j % 2 ^ 32 := by
  rw [slice_key, slice_key, generate_data_key_with_number_inj, ← UInt32.toNat_inj,
    UInt32.toNat_ofNat', UInt32.toNat_ofNat']

theorem alias_iff {p q : Nat} : p % ALIAS = q % ALIAS ↔
    slice_key (p / SLICE_SIZE) = slice_key (q / SLICE_SIZE) ∧ p % SLICE_SIZE = q % SLICE_SIZE := by
  have hS := SLICE_SIZE_pos
  have hp := Nat.mod_lt p hS
  have hq := Nat.mod_lt q hS
  rw [slice_key_eq_iff, ALIAS, Nat.mul_comm, Nat.mod_mul, Nat.mod_mul]
  constructor
  · intro h
    have hdiv := congrArg (· / SLICE_SIZE) h
    have hmod := congrArg (· % SLICE_SIZE) h
    simp only [Nat.add_mul_div_left _ _ hS, Nat.div_eq_of_lt hp, Nat.div_eq_of_lt hq,
      Nat.zero_add, Nat.add_mul_mod_self_left, Nat.mod_mod] at hdiv hmod
    exact ⟨hdiv, hmod⟩
  · rintro ⟨h1, h2⟩
    rw [h1, h2]

theorem stored_byte_congr {p q : Nat} (h : p % ALIAS = q % ALIAS) :
    db.stored_byte n p = db.stored_byte n q := by
  obtain ⟨h1, h2⟩ := alias_iff.mp h
  rw [Db.stored_byte, Db.stored_byte, h1, h2]

/-! ## The bytes after a write -/

/-- One slice is laid over with a chunk: its own bytes are found, and all stored ones that they
do not share a place with. -/
theorem stored_byte_put {num offset : Nat} (base : Bytes) {chunk : Bytes} (hn : db.Has n)
    (hbase : ∀ v, db.get n (slice_key num) = some v → base = v) (hlen : base.length = SLICE_SIZE)
    (hfit : offset + chunk.length ≤ SLICE_SIZE) :
    (∀ p b, db.stored_byte n p = some b →
      (∀ q, num * SLICE_SIZE + offset ≤ q → q < num * SLICE_SIZE + offset + chunk.length →
        q % ALIAS ≠ p % ALIAS) →
      (db.put n (slice_key num) (Slices.overlay base offset chunk)).stored_byte n p = some b) ∧
    ∀ q, num * SLICE_SIZE + offset ≤ q → q < num * SLICE_SIZE + offset + chunk.length →
      (db.put n (slice_key num) (Slices.overlay base offset chunk)).stored_byte n q =
        chunk[q - (num * SLICE_SIZE + offset)]? := by
  have hS := SLICE_SIZE_pos
  have hplace : ∀ j < SLICE_SIZE, (num * SLICE_SIZE + j) / SLICE_SIZE = num ∧
      (num * SLICE_SIZE + j) % SLICE_SIZE = j := by
    intro j hj
    rw [Nat.mul_comm, Nat.mul_add_div hS, Nat.div_eq_of_lt hj, Nat.mul_add_mod, Nat.mod_eq_of_lt hj]
    exact ⟨rfl, rfl⟩
  constructor
  · intro p b hb hother
    rw [Db.stored_byte, Db.get_put]
    by_cases hkey : slice_key (p / SLICE_SIZE) = slice_key num
    · obtain ⟨v, hv, hvb⟩ := Option.bind_eq_some_iff.mp hb
      rw [hkey] at hv
      rw [if_pos ⟨rfl, hkey, hn⟩, Option.bind_some, Slices.getElem?_overlay (by omega), if_neg,
        hbase v hv, hvb]
      rintro ⟨h1, h2⟩
      obtain ⟨hdiv, hmod⟩ := hplace _ (Nat.mod_lt p hS)
      refine hother (num * SLICE_SIZE + p % SLICE_SIZE) (by omega) (by omega) ?_
      rw [alias_iff, hdiv, hmod]
      exact ⟨hkey.symm, rfl⟩
    · rw [if_neg fun h => hkey h.2.1]
      exact hb
  · intro q h1 h2
    obtain ⟨hdiv, hmod⟩ := hplace (offset + (q - (num * SLICE_SIZE + offset))) (by omega)
    have hq : q = num * SLICE_SIZE + (offset + (q - (num * SLICE_SIZE + offset))) := by omega
    rw [← hq] at hdiv hmod
    rw [Db.stored_byte, hdiv, hmod, Db.get_put, if_pos ⟨rfl, rfl, hn⟩, Option.bind_some,
      Slices.getElem?_overlay (by omega), if_pos (by omega), Nat.add_sub_cancel_left]

/-- What a write leaves at `o`, whatever the numbers of its slices: a stored byte stays unless a
byte that shares its place is written, and the last such byte is found. -/
structure Written (n : UInt64) (o : Nat) (buf : Bytes) (db db' : Db) : Prop where
  kept (p : Nat) (b : UInt8) : db.stored_byte n p = some b →
    (∀ q, o ≤ q → q < o + buf.length → q % ALIAS ≠ p % ALIAS) → db'.stored_byte n p = some b
  found (q : Nat) : o ≤ q → q < o + buf.length → o + buf.length ≤ q + ALIAS →
    db'.stored_byte n q = buf[q - o]?

omit [Features] in
theorem add_le_of_mod_eq {A p q : Nat} (h : q % A = p % A) (hlt : p < q) : p + A ≤ q := by
  have hdvd := Nat.dvd_of_mod_eq_zero (Nat.sub_mod_eq_zero_of_mod_eq h)
  have := Nat.le_of_dvd (by omega) hdvd
  omega

/-- A write in two parts, of which the first does not go round. -/
theorem Written.then {o k : Nat} {buf : Bytes} {db₁ : Db} (h : Written n o (buf.take k) db db₁)
    (h' : Written n (o + k) (buf.drop k) db₁ db') (hk : k ≤ buf.length) (hle : k ≤ ALIAS) :
    Written n o buf db db' := by
  have htake : (buf.take k).length = k := by
    rw [List.length_take]
    omega
  have hdrop : (buf.drop k).length = buf.length - k := List.length_drop
  constructor
  · intro p b hb hother
    refine h'.kept p b (h.kept p b hb fun q h1 h2 => ?_) fun q h1 h2 => ?_
    · exact hother q h1 (by omega)
    · exact hother q (by omega) (by omega)
  · intro q h1 h2 h3
    rcases Nat.lt_or_ge q (o + k) with hq | hq
    · have hbyte := h.found q h1 (by omega) (by rw [htake]; exact Nat.add_le_add h1 hle)
      rw [List.getElem?_take, if_pos (by omega), List.getElem?_eq_getElem (by omega)] at hbyte
      rw [List.getElem?_eq_getElem (by omega)]
      refine h'.kept q _ hbyte fun q' h4 h5 hmod => ?_
      have := add_le_of_mod_eq hmod (by omega)
      omega
    · rw [h'.found q hq (by omega) (by omega), List.getElem?_drop]
      congr 1
      omega

theorem write_loop_written {scratch : Scratch} {fuel num offset count c : Nat} {rest : Bytes}
    (hoff : offset < SLICE_SIZE) (hn : db.Has n) (hsliced : db.Sliced n)
    (h : write_loop n scratch fuel num offset count rest db = .Ok (c, db')) :
    Written n (num * SLICE_SIZE + offset) rest db db' := by
  induction fuel generalizing num offset count rest db with
  | zero => simp [write_loop] at h
  | succ fuel ih =>
    have hS := SLICE_SIZE_pos
    have hbase : ((db.get n (slice_key num)).getD (scratch.slice num)).length = SLICE_SIZE := by
      rcases hv : db.get n (slice_key num) with _ | v
      · exact scratch.length_slice num
      · exact hsliced num v hv
    have hfit : offset + (rest.take (SLICE_SIZE - offset)).length ≤ SLICE_SIZE := by
      rw [List.length_take]
      omega
    have hput := stored_byte_put ((db.get n (slice_key num)).getD (scratch.slice num)) hn
      (fun v hv => by rw [hv]; rfl) hbase hfit
    rw [write_loop_turn fuel count hoff hn (hsliced num)] at h
    split_ifs at h with hlen
    · cases h
      rw [List.take_of_length_le hlen] at hput ⊢
      exact ⟨hput.1, fun q h1 h2 _ => hput.2 q h1 h2⟩
    · have hover : (Slices.overlay ((db.get n (slice_key num)).getD (scratch.slice num)) offset
          (rest.take (SLICE_SIZE - offset))).length = SLICE_SIZE := by
        rw [Slices.length_overlay_of_fits (by omega), hbase]
      have hnext := ih hS ((Db.has_put _ _ _ _ _).mpr hn) (hsliced.put num hover) h
      have hplace : (num + 1) * SLICE_SIZE + 0 =
          num * SLICE_SIZE + offset + (SLICE_SIZE - offset) := by
        rw [Nat.add_mul, Nat.one_mul]
        omega
      rw [hplace] at hnext
      refine Written.then ⟨hput.1, fun q h1 h2 _ => hput.2 q h1 h2⟩ hnext (by omega) ?_
      rw [ALIAS]
      omega

theorem write_tx_written {scratch : Scratch} {buf : Bytes} {offset c : Nat}
    (hsliced : db.Sliced n) (h : write_tx n buf offset scratch db = .Ok (c, db')) :
    Written n offset buf db db' := by
  obtain ⟨hoff, hmod⟩ := Slices.pos_eq SLICE_SIZE_pos (p := offset) rfl rfl
  simp [write_tx] at h
  obtain ⟨hn, size, _, count, db₁, hloop, _, hend⟩ := h
  have hwritten := write_loop_written hmod hn hsliced hloop
  rw [← hoff] at hwritten
  have hsame : ∀ p, db'.stored_byte n p = db₁.stored_byte n p := by
    intro p
    rcases hend with ⟨_, ⟨_, rfl⟩, _⟩ | ⟨_, _, rfl⟩
    · rw [Db.stored_byte, Db.get_put, if_neg fun e => field_ne_slice_key _ _ e.2.1.symm]
      rfl
    · rfl
  refine ⟨fun p b hb hother => ?_, fun q h1 h2 h3 => ?_⟩
  · rw [hsame]
    exact hwritten.kept p b hb hother
  · rw [hsame]
    exact hwritten.found q h1 h2 h3

/-! ## A read of what was written -/

/-- The slices of a range whose ends are cut to 32 bits. -/
theorem read_cut {size a : Nat} {out : Bytes} (hreg : Regulated db n)
    (hsize : db.usize n .size = some size) (hout : out ≠ [])
    (hend : a * SLICE_SIZE + out.length ≤ size) :
    read_tx n out (a * SLICE_SIZE) db = (do
      let st ← unwrap (read_loop size 0 (stored (db.slices n) (a % 2 ^ 32)
        (((a * SLICE_SIZE + out.length) / SLICE_SIZE + 1) % 2 ^ 32 - a % 2 ^ 32)) a (out, 0))
      pure (st.2, st.1) : Tx (Nat × Bytes)) db := by
  have hS := SLICE_SIZE_pos
  have hpos := List.length_pos_iff.mpr hout
  have hlt := Db.lt_of_usize hsize
  have hcut : ∀ i, slice_key i = slice_key (i % 2 ^ 32) := fun i =>
    slice_key_eq_iff.mpr (Nat.mod_mod ..).symm
  have hlast : min ((a * SLICE_SIZE + out.length) / SLICE_SIZE + 1) (size / SLICE_SIZE + 1) =
      (a * SLICE_SIZE + out.length) / SLICE_SIZE + 1 :=
    Nat.min_eq_left (Nat.succ_le_succ (Nat.div_le_div_right hend))
  have hrange := range_slices hreg.has hreg.keys (Nat.mod_lt a (by decide : 0 < 2 ^ 32))
    (Nat.mod_lt ((a * SLICE_SIZE + out.length) / SLICE_SIZE + 1) (by decide : 0 < 2 ^ 32))
  rw [← hcut, ← hcut] at hrange
  rw [read_within hsize (by omega) (by omega)]
  simp only [Nat.mul_div_cancel _ hS, Nat.mul_mod_left, hlast]
  rw [bind_of_ok hrange]

/-- What a walk with one slice in hand shows begins with that slice. -/
theorem read_loop_first {f : Nat → Option Bytes} (hf : Slices.Whole SLICE_SIZE f)
    {size a k : Nat} {out v : Bytes} (hv : f (a % 2 ^ 32) = some v)
    (h32 : a % 2 ^ 32 + (k + 1) < 2 ^ 32)
    (hsize : ∀ j < a % 2 ^ 32 + (k + 1), j * SLICE_SIZE ≤ size) :
    ∃ more, read_loop size 0 (stored f (a % 2 ^ 32) (k + 1)) a (out, 0) =
      some (showing out (v.take (size - a % 2 ^ 32 * SLICE_SIZE) ++ more)) := by
  have hzero : (out, 0) = showing out [] := by simp [showing]
  have hpiece : read_piece size 0 (a % 2 ^ 32) v (showing out []) =
      some (showing out (v.take (size - a % 2 ^ 32 * SLICE_SIZE))) :=
    read_piece_showing (hsize _ (by omega)) (hf _ v hv)
  generalize v.take (size - a % 2 ^ 32 * SLICE_SIZE) = first at hpiece ⊢
  -- whatever the walk expects next, it goes on behind the first slice
  have hnext : ∀ s', a % 2 ^ 32 + 1 ≤ s' → s' ≤ a % 2 ^ 32 + 2 → ∃ more,
      (if (showing out first).2 = (showing out first).1.length then some (showing out first)
        else read_loop size 0 (stored f (a % 2 ^ 32 + 1) k) s' (showing out first)) =
      some (showing out (first ++ more)) := by
    intro s' h1 h2
    split_ifs with hfull
    · exact ⟨[], by rw [List.append_nil]⟩
    · exact ⟨_, read_loop_showing hf (by omega) (fun j hj => hsize j (by omega)) h2
        (fun m h3 h4 => by omega)⟩
  obtain ⟨index, hindex, htoNat⟩ := Option.map_eq_some_iff.mp (slice_key_number
    (show a % 2 ^ 32 < 2 ^ 32 by omega))
  rw [stored_some hv, hzero, read_loop, hindex]
  simp only [Option.bind_eq_bind, Option.bind_some, htoNat, Option.pure_def]
  by_cases hround : a % 2 ^ 32 = a
  · rw [if_neg (not_not.mpr hround), hpiece, Option.bind_some]
    exact hnext (a + 1) (by omega) (by omega)
  · rw [if_pos hround, read_holes, Nat.sub_self, List.range'_zero, List.foldlM_nil,
      Option.pure_def, Option.bind_some, hpiece, Option.bind_some]
    exact hnext (a % 2 ^ 32 + 1 + 1) (by omega) (by omega)

/-- The read gets a first byte, the one under the key of its offset, when the key of its end
comes after it; otherwise it gets nothing. -/
theorem read_first {size a : Nat} {out v : Bytes} (hreg : Regulated db n)
    (hsize : db.usize n .size = some size) (hout : out ≠ [])
    (hend : a * SLICE_SIZE + out.length ≤ size) (hv : db.get n (slice_key a) = some v) :
    if a % 2 ^ 32 < ((a * SLICE_SIZE + out.length) / SLICE_SIZE + 1) % 2 ^ 32 then
      ∃ c b, read_tx n out (a * SLICE_SIZE) db = .Ok ((c, b), db) ∧ 1 ≤ c ∧ b[0]? = v[0]?
    else read_tx n out (a * SLICE_SIZE) db = .Ok ((0, out), db) := by
  have hS := SLICE_SIZE_pos
  have hpos := List.length_pos_iff.mpr hout
  have hwhole := whole_slices.mpr hreg.sliced
  have hmod := Nat.mod_le ((a * SLICE_SIZE + out.length) / SLICE_SIZE + 1) (2 ^ 32)
  have hmod' := Nat.mod_lt ((a * SLICE_SIZE + out.length) / SLICE_SIZE + 1)
    (by decide : 0 < 2 ^ 32)
  have hsizes : ∀ j ≤ (a * SLICE_SIZE + out.length) / SLICE_SIZE, j * SLICE_SIZE ≤ size :=
    fun j hj => ((Nat.le_div_iff_mul_le hS).mp hj).trans hend
  rw [read_cut hreg hsize hout hend]
  generalize ((a * SLICE_SIZE + out.length) / SLICE_SIZE) = last at hmod hmod' hsizes ⊢
  split_ifs with hlt
  · have hfirst : db.slices n (a % 2 ^ 32) = some v := by
      rw [Db.slices_of_lt _ _ (Nat.mod_lt a (by decide)), ← hv]
      congr 1
      exact slice_key_eq_iff.mpr (Nat.mod_mod ..)
    obtain ⟨k, hk⟩ : ∃ k, (last + 1) % 2 ^ 32 - a % 2 ^ 32 = k + 1 :=
      ⟨(last + 1) % 2 ^ 32 - a % 2 ^ 32 - 1, by omega⟩
    obtain ⟨more, hloop⟩ : ∃ more, read_loop size 0
        (stored (db.slices n) (a % 2 ^ 32) (k + 1)) a (out, 0) =
          some (showing out (v.take (size - a % 2 ^ 32 * SLICE_SIZE) ++ more)) :=
      read_loop_first hwhole hfirst (by omega) fun j hj => hsizes j (by omega)
    have hleft : a % 2 ^ 32 * SLICE_SIZE < size := by
      have := Nat.mul_le_mul_right SLICE_SIZE (Nat.mod_le a (2 ^ 32))
      omega
    have hlen : 0 < (v.take (size - a % 2 ^ 32 * SLICE_SIZE)).length := by
      rw [List.length_take, hreg.sliced a v hv]
      omega
    have hbyte : (v.take (size - a % 2 ^ 32 * SLICE_SIZE))[0]? = v[0]? := by
      rw [List.getElem?_take, if_pos (by omega)]
    generalize v.take (size - a % 2 ^ 32 * SLICE_SIZE) = first at hloop hlen hbyte
    rw [hk, bind_of_ok (unwrap_ok_iff.mpr ⟨hloop, rfl⟩)]
    refine ⟨_, _, rfl, ?_, ?_⟩
    · simp only [showing, List.length_append]
      omega
    · simp only [showing]
      rw [List.getElem?_append_left (by rw [List.length_take, List.length_append]; omega),
        List.getElem?_take, if_pos hpos, List.getElem?_append_left hlen, hbyte]
  · rw [Nat.sub_eq_zero_of_le (not_lt.mp hlt)]
    rfl

/-! ## Writes that change nothing else and are found again -/

/-- A write leaves the stored bytes of all other positions that count; a read at the start of a
slice finds its first byte. -/
def NeverAliases (Counts : Nat → Prop) (n : UInt64) (buf : Bytes) (offset : Nat) (s s' : Sys) :
    Prop :=
  (∀ p, Counts p → ¬ (offset ≤ p ∧ p < offset + buf.length) → ∀ b,
    s.db.stored_byte n p = some b → s'.db.stored_byte n p = some b) ∧
  (offset % SLICE_SIZE = 0 → ∀ out : Bytes, out.length = buf.length →
    ∃ c b, dbfs_common_read n out offset s' = (.Ok (c, b), s') ∧ 1 ≤ c ∧ b[0]? = buf[0]?)

/-- Where a written position shares its byte with another one that counts, nothing is stored, or
the byte that is written last. -/
def SharesNothing (Counts : Nat → Prop) (db : Db) (n : UInt64) (buf : Bytes) (offset : Nat) :
    Prop :=
  ∀ q, offset ≤ q → q < offset + buf.length → offset + buf.length ≤ q + ALIAS →
    ∀ p, Counts p → ¬ (offset ≤ p ∧ p < offset + buf.length) → p % ALIAS = q % ALIAS →
    ∀ b, db.stored_byte n q = some b → buf[q - offset]? = some b

/-- Over all positions, a written byte is always shared: the bytes that are stored stay. -/
theorem sharesNothing_all {buf : Bytes} {offset : Nat} :
    SharesNothing (fun _ => True) db n buf offset ↔
      ∀ q, offset ≤ q → q < offset + buf.length → offset + buf.length ≤ q + ALIAS →
        ∀ b, db.stored_byte n q = some b → buf[q - offset]? = some b := by
  refine ⟨fun h q h1 h2 h3 => ?_, fun h q h1 h2 h3 _ _ _ _ => h q h1 h2 h3⟩
  exact h q h1 h2 h3 (q + ALIAS) trivial (by omega) (Nat.add_mod_right q ALIAS)

/-- Within the 2^32 slices a write shares nothing. -/
theorem sharesNothing_within {buf : Bytes} {offset : Nat} (hend : offset + buf.length ≤ ALIAS) :
    SharesNothing (· < ALIAS) db n buf offset := by
  intro q h1 h2 _ p hp hout hmod
  rw [Nat.mod_eq_of_lt hp, Nat.mod_eq_of_lt (by omega)] at hmod
  exact absurd ⟨hmod ▸ h1, hmod ▸ h2⟩ hout

omit [Features] in
/-- The last position of a range that lies a multiple of `A` behind `q`. -/
theorem exists_last {A q last : Nat} (hA : 0 < A) (hq : q < last) :
    q + (last - 1 - q) / A * A < last ∧ last ≤ q + (last - 1 - q) / A * A + A := by
  have h1 := Nat.div_mul_le_self (last - 1 - q) A
  have h2 := Slices.lt_of_div_le hA (le_refl ((last - 1 - q) / A))
  omega

theorem Written.keeps_iff {s s' : Sys} {buf : Bytes} {offset : Nat} (Counts : Nat → Prop)
    (h : Written n offset buf s.db s'.db) :
    (∀ p, Counts p → ¬ (offset ≤ p ∧ p < offset + buf.length) →
      ∀ b, s.db.stored_byte n p = some b → s'.db.stored_byte n p = some b) ↔
      SharesNothing Counts s.db n buf offset := by
  have hA : 0 < ALIAS := Nat.mul_pos (by decide) SLICE_SIZE_pos
  constructor
  · intro hkeeps q h1 h2 h3 p hp hout hmod b hb
    rw [← h.found q h1 h2 h3, ← stored_byte_congr hmod]
    rw [← stored_byte_congr hmod] at hb
    exact hkeeps p hp hout b hb
  · intro hshares p hp hout b hb
    by_cases hother : ∀ q, offset ≤ q → q < offset + buf.length → q % ALIAS ≠ p % ALIAS
    · exact h.kept p b hb hother
    · push Not at hother
      obtain ⟨q, h1, h2, hmod⟩ := hother
      obtain ⟨h3, h4⟩ := exists_last hA h2
      have hlast : (q + (offset + buf.length - 1 - q) / ALIAS * ALIAS) % ALIAS = p % ALIAS := by
        rw [Nat.add_mul_mod_self_right, hmod]
      have hfound := h.found _ (by omega) h3 h4
      rw [stored_byte_congr hlast] at hfound
      rw [hfound]
      rw [← stored_byte_congr hlast] at hb
      exact hshares _ (by omega) h3 h4 p hp hout hlast.symm b hb

/-- A write never meets another position, and is found again, exactly when it shares no stored
byte and, where it starts a slice, the key of its end comes after the key of its start and the
byte that is written last to its first place is its first one. This is so whichever positions
count: all of them, or those below the size, or those of the 2^32 slices. -/
theorem never_aliases_iff (Counts : Nat → Prop) (n : UInt64) (buf : Bytes) (offset c : Nat)
    (scratch : Scratch) (s s' : Sys) (hreg : Regulated s.db n) (hbuf : buf ≠ [])
    (h : dbfs_common_write n buf offset scratch s = (.Ok c, s')) :
    NeverAliases Counts n buf offset s s' ↔ SharesNothing Counts s.db n buf offset ∧
      (offset % SLICE_SIZE = 0 → offset / SLICE_SIZE % 2 ^ 32 <
          ((offset + buf.length) / SLICE_SIZE + 1) % 2 ^ 32 ∧
        buf[(buf.length - 1) / ALIAS * ALIAS]? = buf[0]?) := by
  have hS := SLICE_SIZE_pos
  have hA : 0 < ALIAS := Nat.mul_pos (by decide) hS
  have hpos := List.length_pos_iff.mpr hbuf
  have hreg' : Regulated s'.db n := by
    have hstep := hreg.step (.write offset buf) scratch
    rwa [ContentCall.run, Fs.discard_state, h] at hstep
  simp only [dbfs_common_write, Fs.write_ok] at h
  obtain ⟨db', htx, rfl⟩ := h
  have hwritten := write_tx_written hreg.sliced htx
  obtain ⟨_, _, _, size, _, hsize⟩ := write_tx_only htx
  unfold NeverAliases
  rw [hwritten.keeps_iff Counts]
  refine and_congr_right fun _ => imp_congr_right fun halign => ?_
  obtain ⟨a, rfl⟩ : ∃ a, offset = a * SLICE_SIZE :=
    ⟨offset / SLICE_SIZE, (Nat.div_mul_cancel (Nat.dvd_of_mod_eq_zero halign)).symm⟩
  rw [Nat.mul_div_cancel _ hS]
  -- the byte under the key of the offset
  obtain ⟨h3, h4⟩ := exists_last hA (show a * SLICE_SIZE < a * SLICE_SIZE + buf.length by omega)
  have hlast := hwritten.found _ (Nat.le_add_right ..) h3 h4
  rw [Nat.add_sub_cancel_left, show a * SLICE_SIZE + buf.length - 1 - a * SLICE_SIZE =
    buf.length - 1 by omega] at hlast
  rw [stored_byte_congr (Nat.add_mul_mod_self_right ..), Db.stored_byte, Nat.mul_div_cancel _ hS,
    Nat.mul_mod_left] at hlast
  have hin := Nat.div_mul_le_self (buf.length - 1) ALIAS
  obtain ⟨v, hv, hv0⟩ := Option.bind_eq_some_iff.mp
    (hlast.trans (List.getElem?_eq_getElem (show _ < buf.length by omega)))
  rw [hv, Option.bind_some] at hlast
  have hread : ∀ out : Bytes, out.length = buf.length →
      if a % 2 ^ 32 < ((a * SLICE_SIZE + buf.length) / SLICE_SIZE + 1) % 2 ^ 32 then
        ∃ c b, read_tx n out (a * SLICE_SIZE) db' = .Ok ((c, b), db') ∧ 1 ≤ c ∧ b[0]? = v[0]?
      else read_tx n out (a * SLICE_SIZE) db' = .Ok ((0, out), db') := by
    intro out hout
    rw [← hout]
    refine read_first hreg' hsize (List.length_pos_iff.mp (by omega)) ?_ hv
    omega
  simp only [dbfs_common_read, Fs.read_ok, and_true]
  constructor
  · intro hall
    obtain ⟨c, b, ⟨db'', hret⟩, hc, hb⟩ := hall buf rfl
    have hread := hread buf rfl
    split_ifs at hread with hlt
    · obtain ⟨c', b', hret', _, hb'⟩ := hread
      cases hret.symm.trans hret'
      exact ⟨hlt, hlast.symm.trans (hb'.symm.trans hb)⟩
    · cases hret.symm.trans hread
      omega
  · rintro ⟨hlt, hsame⟩ out hout
    have hread := hread out hout
    rw [if_pos hlt] at hread
    obtain ⟨c, b, hret, hc, hb⟩ := hread
    exact ⟨c, b, ⟨db', hret⟩, hc, hb.trans (hlast.trans hsame)⟩

end sharing

/-! ## The slice behind the last one -/

section sample

attribute [local instance] sli512_features

/-- A file with one byte, and the same file after a byte was written 2^32 slices behind it. -/
def one_byte : Sys := (dbfs_common_write 2 [1] 0 (filled_with 0) with_new_file.2).2

def one_byte_far : DbfsResult Nat × Sys :=
  dbfs_common_write 2 [9] (2 ^ 32 * 512) (filled_with 0) one_byte

/-- A byte in the last of the 2^32 slices. -/
def one_byte_last : DbfsResult Nat × Sys :=
  dbfs_common_write 2 [9] ((2 ^ 32 - 1) * 512) (filled_with 0) one_byte

theorem one_byte_regulated : Regulated one_byte.db 2 := by
  have hnew : NewFile with_new_file.2.db 2 := create_new_file (by decide) with_new_file_eq
  have hstep := hnew.regulated.step (.write 0 [1]) (filled_with 0)
  rwa [ContentCall.run, Fs.discard_state] at hstep

theorem far_byte_overwrites_the_first :
    Regulated one_byte.db 2 ∧
      (one_byte_far.1 = .Ok 1 ∧ one_byte.db.stored_byte 2 0 = some 1 ∧
        one_byte_far.2.db.stored_byte 2 0 = some 9 ∧
        ¬ NeverAliases (fun _ => True) 2 [9] (2 ^ 32 * 512) one_byte one_byte_far.2) ∧
      one_byte_last.1 = .Ok 1 ∧
      (dbfs_common_read 2 [0] ((2 ^ 32 - 1) * 512) one_byte_last.2).1 = .Ok (0, [0]) ∧
      ¬ NeverAliases (fun _ => True) 2 [9] ((2 ^ 32 - 1) * 512) one_byte one_byte_last.2 := by
  have hfirst : one_byte.db.stored_byte 2 0 = some 1 := by decide +kernel
  have hfar : one_byte_far.2.db.stored_byte 2 0 = some 9 := by decide +kernel
  have hlast : (dbfs_common_read 2 [0] ((2 ^ 32 - 1) * 512) one_byte_last.2).1 = .Ok (0, [0]) := by
    decide +kernel
  refine ⟨one_byte_regulated, ⟨by decide +kernel, hfirst, hfar, fun h => ?_⟩, by decide +kernel,
    hlast, fun h => ?_⟩
  · have := h.1 0 trivial (by decide +kernel) 1 hfirst
    rw [hfar] at this
    cases this
  · obtain ⟨c, b, hread, hc, _⟩ := h.2 (by decide +kernel) [0] rfl
    cases hlast.symm.trans (congrArg Prod.fst hread)
    omega

/-- A byte in the second slice, which is not stored, and a new byte for the first one. -/
theorem second_slice_shares_nothing :
    NeverAliases (fun _ => True) 2 [9] 512 one_byte
        (dbfs_common_write 2 [9] 512 (filled_with 0) one_byte).2 ∧
      NeverAliases (· < ALIAS) 2 [7] 0 one_byte
        (dbfs_common_write 2 [7] 0 (filled_with 0) one_byte).2 := by
  constructor
  · refine (never_aliases_iff _ 2 [9] 512 1 (filled_with 0) one_byte _ one_byte_regulated
      (by decide) (Prod.ext (by decide +kernel) rfl)).mpr
      ⟨sharesNothing_all.mpr ?_, fun _ => ⟨by decide +kernel, by decide +kernel⟩⟩
    have hnone : one_byte.db.stored_byte 2 512 = none := by decide +kernel
    intro q h1 h2 _ b hb
    obtain rfl : q = 512 := by
      simp only [List.length_singleton] at h2
      omega
    rw [hnone] at hb
    cases hb
  · have hok : (dbfs_common_write 2 [7] 0 (filled_with 0) one_byte).1 = .Ok 1 := by
      decide +kernel
    have hrun : dbfs_common_write 2 [7] 0 (filled_with 0) one_byte =
        (.Ok 1, (dbfs_common_write 2 [7] 0 (filled_with 0) one_byte).2) := by
      rw [← hok]
    refine (never_aliases_iff _ 2 [7] 0 1 (filled_with 0) one_byte _ one_byte_regulated
      (by decide) hrun).mpr ⟨sharesNothing_within ?_, fun _ => ?_⟩
    · decide +kernel
    · exact ⟨by decide +kernel, by decide +kernel⟩

end sample

end dbfs2
