-- The write of file.rs as it runs on memory: slices put together in blocks of the buddy
-- allocator, copied in the widest units that the addresses allow, and handed to the bucket
-- as pointers that are read until the commit.
import Dbfs2.FileSpec
import Dbfs2.Memory

namespace dbfs2

open common Tx inode

namespace file

/-! ## The pointers -/

def copy_data (m : Memory UInt8) (src dest len : Nat) : Memory UInt8 :=
  if src % 16 = 0 ∧ dest % 16 = 0 ∧ len % 16 = 0 then m.copy_units 16 src dest (len / 16)
  else if src % 8 = 0 ∧ dest % 8 = 0 ∧ len % 8 = 0 then m.copy_units 8 src dest (len / 8)
  else if src % 4 = 0 ∧ dest % 4 = 0 ∧ len % 4 = 0 then m.copy_units 4 src dest (len / 4)
  else if src % 2 = 0 ∧ dest % 2 = 0 ∧ len % 2 = 0 then m.copy_units 2 src dest (len / 2)
  else m.copy_units 1 src dest len

/-- Memory, the place of each value of the bucket, and the blocks to give back. -/
structure RawState where
  mem : Memory UInt8
  value : Bytes → Option Nat
  ptrs : List Nat

section loop

variable [Features]

/-- One turn of the loop: a full slice is put where it stands in the buffer, any other is put
together in a block. -/
def raw_slice (key : Bytes) (block src offset len : Nat) (st : RawState) : RawState :=
  if len = SLICE_SIZE ∧ offset = 0 then
    { st with value := Function.update st.value key (some src) }
  else
    let mem := match st.value key with
      | none => copy_data st.mem src (block + offset) len
      | some value =>
        copy_data (copy_data (copy_data st.mem value block offset) src (block + offset) len)
          (value + (offset + len)) (block + (offset + len)) (SLICE_SIZE - offset - len)
    ⟨mem, Function.update st.value key (some block), st.ptrs ++ [block]⟩

/-- `block num` is what the allocator gives for slice `num`, `buf` the address of the buffer. -/
def raw_write_loop (block : Nat → Nat) (buf buf_len : Nat) :
    Nat → Nat → Nat → Nat → RawState → Option (Nat × RawState)
  | 0, _, _, _, _ => none
  | fuel + 1, num, offset, count, st =>
    let len := min (buf_len - count) (SLICE_SIZE - offset)
    let st := raw_slice (slice_key num) (block num) (buf + count) offset len st
    if count + len = buf_len then some (count + len, st)
    else
      raw_write_loop block buf buf_len fuel (num + 1) ((offset + len) % SLICE_SIZE) (count + len) st

def raw_write (block : Nat → Nat) (buf buf_len offset : Nat) (mem : Memory UInt8)
    (value : Bytes → Option Nat) : Option (Nat × RawState) :=
  raw_write_loop block buf buf_len (buf_len + 1) (offset / SLICE_SIZE) (offset % SLICE_SIZE) 0
    ⟨mem, value, []⟩

end loop

/-! ## Copies -/

/-- Whatever unit the addresses allow, the bytes are copied. -/
theorem copy_data_eq {m : Memory UInt8} {src dest len : Nat}
    (h : Memory.Apart src len dest len) : copy_data m src dest len = m.copy src dest len := by
  have hunits : ∀ w, len % w = 0 → m.copy_units w src dest (len / w) = m.copy src dest len := by
    intro w hw
    have hlen : len / w * w = len := Nat.div_mul_cancel (Nat.dvd_of_mod_eq_zero hw)
    rw [Memory.copy_units_eq w (by rwa [hlen]), hlen]
  unfold copy_data
  split_ifs with h16 h8 h4 h2
  · exact hunits 16 h16.2.2
  · exact hunits 8 h8.2.2
  · exact hunits 4 h4.2.2
  · exact hunits 2 h2.2.2
  · simpa using hunits 1 (Nat.mod_one len)

/-- Copied into a block, bytes lie over what was there. -/
theorem read_copy_into {m : Memory UInt8} {src block offset len S : Nat} (hle : offset + len ≤ S)
    (h : Memory.Apart src len block S) : (m.copy src (block + offset) len).read block S =
      Slices.overlay (m.read block S) offset (m.read src len) := by
  obtain ⟨r, rfl⟩ := Nat.exists_eq_add_of_le hle
  have hbefore : Memory.Apart block offset (block + offset) len := .inl le_rfl
  have hafter : Memory.Apart (block + (offset + len)) r (block + offset) len := .inr (by omega)
  rw [Slices.overlay, Memory.length_read, Memory.take_read _ _ _ (by omega),
    Memory.drop_read _ _ _ (by omega), Nat.add_sub_cancel_left, Memory.read_add, Memory.read_add,
    Memory.read_copy, Memory.read_copy_apart hbefore, Memory.read_copy_apart hafter]

/-- With the stored value around them, bytes in a block lie over that value. -/
theorem read_copy_over {m : Memory UInt8} {src value block offset len S : Nat}
    (hle : offset + len ≤ S) (h : Memory.Apart src len block S)
    (hv : Memory.Apart value S block S) :
    (((m.copy value block offset).copy src (block + offset) len).copy (value + (offset + len))
      (block + (offset + len)) (S - (offset + len))).read block S =
      Slices.overlay (m.read value S) offset (m.read src len) := by
  obtain ⟨r, rfl⟩ := Nat.exists_eq_add_of_le hle
  have hhead : Memory.Apart block offset (block + offset) len := .inl le_rfl
  have hfront : Memory.Apart block (offset + len) (block + (offset + len)) r := .inl le_rfl
  have hsrc : Memory.Apart src len block offset := h.part le_rfl le_rfl le_rfl (by omega)
  have htail : Memory.Apart (value + (offset + len)) r (block + offset) len :=
    hv.part (by omega) (by omega) (by omega) (by omega)
  have htail' : Memory.Apart (value + (offset + len)) r block offset :=
    hv.part (by omega) (by omega) (by omega) (by omega)
  have hread : ∀ m : Memory UInt8, m.read block (offset + len) =
      m.read block offset ++ m.read (block + offset) len := fun m => m.read_add block offset len
  rw [Slices.overlay, Memory.length_read, Memory.take_read _ _ _ (by omega),
    Memory.drop_read _ _ _ (by omega), Nat.add_sub_cancel_left, Memory.read_add,
    Memory.read_copy, Memory.read_copy_apart hfront, hread, Memory.read_copy,
    Memory.read_copy_apart hhead, Memory.read_copy, Memory.read_copy_apart hsrc,
    Memory.read_copy_apart htail, Memory.read_copy_apart htail']

/-! ## One slice -/

section slice

variable [Features] {key : Bytes} {block src offset len : Nat} {st : RawState}

/-- Address `a` is not in the block. -/
def Outside (block a : Nat) : Prop := ¬ (block ≤ a ∧ a < block + SLICE_SIZE)

/-- Where one turn puts a slice: in the buffer, or in the block. -/
def raw_place (block src offset len : Nat) : Nat :=
  if len = SLICE_SIZE ∧ offset = 0 then src else block

theorem raw_slice_value : (raw_slice key block src offset len st).value =
    Function.update st.value key (some (raw_place block src offset len)) := by
  unfold raw_slice raw_place
  split_ifs <;> rfl

theorem raw_slice_ptrs (key : Bytes) (block src offset len : Nat) (st : RawState) :
    (raw_slice key block src offset len st).ptrs =
    if len = SLICE_SIZE ∧ offset = 0 then st.ptrs else st.ptrs ++ [block] := by
  unfold raw_slice
  split_ifs <;> rfl

variable (hle : offset + len ≤ SLICE_SIZE) (hsrc : Memory.Apart src len block SLICE_SIZE)
  (hvalue : ∀ a, st.value key = some a → Memory.Apart a SLICE_SIZE block SLICE_SIZE)

include hle hsrc hvalue

/-- The memory after one turn, in copies. -/
theorem raw_slice_mem : (raw_slice key block src offset len st).mem =
    if len = SLICE_SIZE ∧ offset = 0 then st.mem
    else match st.value key with
      | none => st.mem.copy src (block + offset) len
      | some value => ((st.mem.copy value block offset).copy src (block + offset) len).copy
          (value + (offset + len)) (block + (offset + len)) (SLICE_SIZE - (offset + len)) := by
  unfold raw_slice
  split_ifs
  · rfl
  · have hmid : ∀ m, copy_data m src (block + offset) len = m.copy src (block + offset) len :=
      fun m => copy_data_eq (hsrc.part le_rfl le_rfl (by omega) (by omega))
    rcases hv : st.value key with _ | value
    · exact hmid _
    · have hapart := hvalue value hv
      dsimp only
      rw [copy_data_eq (hapart.part le_rfl (by omega) le_rfl (by omega)), hmid, Nat.sub_sub,
        copy_data_eq (hapart.part (by omega) (by omega) (by omega) (by omega))]

/-- What stands where the slice was put. -/
theorem raw_slice_read :
    (raw_slice key block src offset len st).mem.read (raw_place block src offset len) SLICE_SIZE =
      Slices.overlay (((st.value key).map (st.mem.read · SLICE_SIZE)).getD
        (st.mem.read block SLICE_SIZE)) offset (st.mem.read src len) := by
  rw [raw_slice_mem hle hsrc hvalue, raw_place]
  split_ifs with hfull
  · rw [hfull.1, hfull.2, Slices.overlay_full]
    rcases st.value key with _ | value <;> simp
  · rcases hv : st.value key with _ | value
    · exact read_copy_into hle hsrc
    · exact read_copy_over hle hsrc (hvalue value hv)

/-- One turn changes nothing outside of its block. -/
theorem raw_slice_frame {a : Nat} (ha : Outside block a) :
    (raw_slice key block src offset len st).mem a = st.mem a := by
  unfold Outside at ha
  rw [raw_slice_mem hle hsrc hvalue]
  split_ifs
  · rfl
  · rcases st.value key with _ | value
    · exact if_neg (by omega)
    · simp only [Memory.copy]
      rw [if_neg (by omega), if_neg (by omega), if_neg (by omega)]

theorem raw_slice_apart {a n : Nat} (ha : Memory.Apart a n block SLICE_SIZE) :
    (raw_slice key block src offset len st).mem.read a n = st.mem.read a n := by
  refine Memory.read_congr fun i hi => raw_slice_frame hle hsrc hvalue ?_
  unfold Outside
  unfold Memory.Apart at ha
  omega

end slice

/-! ## The loop -/

section loop

variable [Features]

/-- Each value of a slice lies where the pointers say: what a commit reads is the bucket. -/
def Mirrors (db : Db) (n : UInt64) (st : RawState) : Prop :=
  ∀ i, (st.value (slice_key i)).map (st.mem.read · SLICE_SIZE) = db.get n (slice_key i)

/-- The blocks of the allocator lie apart, and apart from the buffer and from the stored values. -/
structure Placed (block : Nat → Nat) (buf len : Nat) (value : Bytes → Option Nat) : Prop where
  blocks (i j : Nat) : i ≠ j → Memory.Apart (block i) SLICE_SIZE (block j) SLICE_SIZE
  buffer (i : Nat) : Memory.Apart buf len (block i) SLICE_SIZE
  values (k : Bytes) (a i : Nat) : value k = some a →
    Memory.Apart a SLICE_SIZE (block i) SLICE_SIZE

/-- The state before slice `num`, when the write began in memory `mem`. -/
structure RawInv (block : Nat → Nat) (mem : Memory UInt8) (db : Db) (n : UInt64) (num : Nat)
    (st : RawState) : Prop where
  mirrors : Mirrors db n st
  values (k : Bytes) (a i : Nat) : num ≤ i → st.value k = some a →
    Memory.Apart a SLICE_SIZE (block i) SLICE_SIZE
  taken (b : Nat) : b ∈ st.ptrs → ∃ j < num, b = block j
  once : st.ptrs.Nodup
  frame (a : Nat) : (∀ b ∈ st.ptrs, Outside b a) → st.mem a = mem a

variable {block : Nat → Nat} {buf len : Nat} {mem : Memory UInt8} {value : Bytes → Option Nat}
  {db : Db} {n : UInt64} {num : Nat} {st : RawState}

theorem RawInv.start (hp : Placed block buf len value) (hm : Mirrors db n ⟨mem, value, []⟩)
    (num : Nat) : RawInv block mem db n num ⟨mem, value, []⟩ where
  mirrors := hm
  values k a i _ hk := hp.values k a i hk
  taken b hb := by cases hb
  once := .nil
  frame _ _ := rfl

/-- What lies apart from all blocks is as it was. -/
theorem RawInv.read (h : RawInv block mem db n num st) {a k : Nat}
    (ha : ∀ j < num, Memory.Apart a k (block j) SLICE_SIZE) : st.mem.read a k = mem.read a k := by
  refine Memory.read_congr fun i hi => h.frame _ fun b hb => ?_
  obtain ⟨j, hj, rfl⟩ := h.taken b hb
  have hapart := ha j hj
  unfold Memory.Apart at hapart
  unfold Outside
  omega

theorem RawInv.step (hp : Placed block buf len value) (h : RawInv block mem db n num st)
    (hn : db.Has n) (src offset k : Nat) (hle : offset + k ≤ SLICE_SIZE) (hsrc : buf ≤ src)
    (hend : src + k ≤ buf + len) :
    RawInv block mem (db.put n (slice_key num) (Slices.overlay
        ((db.get n (slice_key num)).getD (mem.read (block num) SLICE_SIZE)) offset
        (mem.read src k))) n (num + 1)
      (raw_slice (slice_key num) (block num) src offset k st) := by
  have hS := SLICE_SIZE_pos
  have hbuf : ∀ i, Memory.Apart src k (block i) SLICE_SIZE := fun i =>
    (hp.buffer i).part hsrc hend le_rfl le_rfl
  have hvalue : ∀ a, st.value (slice_key num) = some a →
      Memory.Apart a SLICE_SIZE (block num) SLICE_SIZE := fun a => h.values _ a num le_rfl
  have hplace : ∀ i, num < i →
      Memory.Apart (raw_place (block num) src offset k) SLICE_SIZE (block i) SLICE_SIZE := by
    intro i hi
    unfold raw_place
    split_ifs with hfull
    · have hapart := hbuf i
      rwa [hfull.1] at hapart
    · exact hp.blocks num i (by omega)
  refine ⟨fun i => ?_, fun key a i hi hk => ?_, fun b hb => ?_, ?_, fun a ha => ?_⟩
  · rw [raw_slice_value, Db.get_put]
    by_cases hkey : slice_key i = slice_key num
    · rw [hkey, Function.update_self, Option.map_some, if_pos ⟨rfl, rfl, hn⟩,
        raw_slice_read hle (hbuf num) hvalue, h.mirrors num, h.read fun j _ => hbuf j,
        h.read fun j hj => hp.blocks num j (by omega)]
    · rw [Function.update_of_ne hkey, if_neg fun e => hkey e.2.1, ← h.mirrors i]
      rcases hv : st.value (slice_key i) with _ | a
      · rfl
      · rw [Option.map_some, Option.map_some,
          raw_slice_apart hle (hbuf num) hvalue (h.values _ a num le_rfl hv)]
  · rw [raw_slice_value] at hk
    by_cases hkey : key = slice_key num
    · rw [hkey, Function.update_self] at hk
      cases hk
      exact hplace i hi
    · rw [Function.update_of_ne hkey] at hk
      exact h.values key a i (by omega) hk
  · rw [raw_slice_ptrs] at hb
    split_ifs at hb
    · obtain ⟨j, hj, rfl⟩ := h.taken b hb
      exact ⟨j, by omega, rfl⟩
    · rcases List.mem_append.mp hb with hb | hb
      · obtain ⟨j, hj, rfl⟩ := h.taken b hb
        exact ⟨j, by omega, rfl⟩
      · exact ⟨num, by omega, List.mem_singleton.mp hb⟩
  · rw [raw_slice_ptrs]
    split_ifs
    · exact h.once
    · refine List.nodup_append.mpr ⟨h.once, List.nodup_singleton _, fun b hb c hc e => ?_⟩
      obtain ⟨j, hj, rfl⟩ := h.taken b hb
      have hapart := hp.blocks j num (by omega)
      rw [e, List.mem_singleton.mp hc] at hapart
      unfold Memory.Apart at hapart
      omega
  · rw [raw_slice_ptrs] at ha
    split_ifs at ha with hfull
    · rw [raw_slice_mem hle (hbuf num) hvalue, if_pos hfull]
      exact h.frame a ha
    · rw [raw_slice_frame hle (hbuf num) hvalue (ha _ (by simp))]
      exact h.frame a fun b hb => ha b (List.mem_append_left _ hb)

/-- The blocks that the turns from this one on take: a turn that starts inside a slice takes one,
and so does the last one. -/
theorem raw_loop {s : Scratch} (hp : Placed block buf len value)
    (hs : ∀ i, s.slice i = mem.read (block i) SLICE_SIZE) {fuel offset count c : Nat} {db' : Db}
    (h : RawInv block mem db n num st) (hn : db.Has n) (hoff : offset < SLICE_SIZE)
    (hcount : count ≤ len)
    (hloop : write_loop n s fuel num offset count (mem.read (buf + count) (len - count)) db =
      .Ok (c, db')) :
    ∃ num' st', raw_write_loop block buf len fuel num offset count st = some (c, st') ∧
      RawInv block mem db' n num' st' ∧
      st'.ptrs.length ≤ st.ptrs.length + if offset = 0 then 1 else 2 := by
  induction fuel generalizing num offset count st db with
  | zero => simp [write_loop] at hloop
  | succ fuel ih =>
    have hkv : ∀ v, db.get n (slice_key num) = some v → v.length = SLICE_SIZE := by
      intro v hv
      rw [← h.mirrors num] at hv
      obtain ⟨a, _, rfl⟩ := Option.map_eq_some_iff.mp hv
      exact Memory.length_read ..
    rw [write_loop_turn fuel count hoff hn hkv, hs, Memory.length_read] at hloop
    have hturn := h.step hp hn (buf + count) offset (min (len - count) (SLICE_SIZE - offset))
      (by omega) (by omega) (by omega)
    have hptrs := congrArg List.length (raw_slice_ptrs (slice_key num) (block num) (buf + count)
      offset (min (len - count) (SLICE_SIZE - offset)) st)
    rw [raw_write_loop]
    split_ifs at hloop with hlast
    · have hmin : min (len - count) (SLICE_SIZE - offset) = len - count := Nat.min_eq_left hlast
      rw [hmin] at hturn hptrs
      rw [List.take_of_length_le (by rwa [Memory.length_read])] at hloop
      cases hloop
      refine ⟨num + 1, _, ?_, hturn, ?_⟩
      · rw [hmin, if_pos (by omega)]
      · rw [hptrs]
        split_ifs <;> simp
    · have hmin : min (len - count) (SLICE_SIZE - offset) = SLICE_SIZE - offset := by omega
      have hmod : (offset + (SLICE_SIZE - offset)) % SLICE_SIZE = 0 := by
        rw [Nat.add_sub_cancel' (Nat.le_of_lt hoff), Nat.mod_self]
      rw [hmin] at hturn hptrs
      rw [Memory.take_read _ _ _ (by omega), Memory.drop_read _ _ _ (by omega), Nat.add_assoc,
        Nat.sub_sub] at hloop
      obtain ⟨num', st', hrun, hinv, hle⟩ := ih hturn (by simpa using hn) SLICE_SIZE_pos (by omega)
        hloop
      refine ⟨num', st', ?_, hinv, hle.trans ?_⟩
      · rw [hmin, if_neg (by omega), hmod]
        exact hrun
      · rw [hptrs]
        by_cases hzero : offset = 0
        · simp [hzero]
        · simp [hzero]

/-- The scratch memory that the blocks of the allocator are. -/
def Scratch.of_blocks (mem : Memory UInt8) (block : Nat → Nat) : Scratch where
  slice i := mem.read (block i) SLICE_SIZE
  length_slice _ := Memory.length_read ..

/-- The write on memory stores what the write on slices does: what the pointers show at the commit
are the slices of the new bucket. It takes two blocks at most, gives none back twice and leaves all
other memory as it was, whatever units its copies go in. -/
theorem raw_write_commits {buf : Bytes} {at_buf offset count : Nat} {db' : Db}
    (hp : Placed block at_buf buf.length value) (hbuf : mem.read at_buf buf.length = buf)
    (hm : Mirrors db n ⟨mem, value, []⟩)
    (hwrite : write_tx n buf offset (.of_blocks mem block) db = .Ok (count, db')) :
    ∃ st, raw_write block at_buf buf.length offset mem value = some (count, st) ∧
      Mirrors db' n st ∧ st.ptrs.length ≤ 2 ∧ st.ptrs.Nodup ∧
      ∀ a, (∀ b ∈ st.ptrs, Outside b a) → st.mem a = mem a := by
  simp [write_tx] at hwrite
  obtain ⟨hn, size, hsize, c, db₁, hloop, hlt, hend⟩ := hwrite
  rw [← hbuf] at hloop
  obtain ⟨num, st, hrun, hinv, hptrs⟩ := raw_loop hp (fun _ => rfl)
    (RawInv.start hp hm (offset / SLICE_SIZE)) hn (Nat.mod_lt offset SLICE_SIZE_pos)
    (Nat.zero_le buf.length) (by simpa using hloop)
  have hslices : ∀ i, db'.get n (slice_key i) = db₁.get n (slice_key i) := by
    intro i
    rcases hend with ⟨_, ⟨_, rfl⟩, _⟩ | ⟨_, _, rfl⟩
    · simp [(field_ne_slice_key .size i).symm]
    · rfl
  have hc : c = count := by
    rcases hend with ⟨_, _, hc⟩ | ⟨_, hc, _⟩
    · exact hc.symm
    · exact hc.symm
  refine ⟨st, ?_, fun i => (hinv.mirrors i).trans (hslices i).symm, ?_, hinv.once, hinv.frame⟩
  · rw [raw_write, hrun, hc]
  · refine hptrs.trans ?_
    split_ifs <;> simp

end loop

/-! ## Three bytes at an odd address -/

section sample

attribute [local instance] sli512_features

def empty_file : Db := ((⟨none, ∅⟩ : Db).create 2).put 2 Field.size.key (be_usize 0)

/-- Each address holds its own number. -/
def numbered_memory : Memory UInt8 := fun a => UInt8.ofNat a

def block_of (i : Nat) : Nat := 4096 + 512 * i

theorem three_bytes_through_a_block :
    ∃ st db', raw_write block_of 1 3 0 numbered_memory (fun _ => none) = some (3, st) ∧
      write_tx 2 [1, 2, 3] 0 (.of_blocks numbered_memory block_of) empty_file = .Ok (3, db') ∧
      Mirrors db' 2 st ∧ st.ptrs.length ≤ 2 := by
  have hslices : ∀ i, empty_file.get 2 (slice_key i) = none := fun i => by
    have hne := (field_ne_slice_key .size i).symm
    simp [empty_file, hne]
  have hwhole : Slices.Whole SLICE_SIZE (empty_file.slices 2) := fun i v hv => by
    simp [Db.slices, hslices] at hv
  have hsize : empty_file.usize 2 .size = some 0 := by decide +kernel
  have hwrite : ∃ db',
      write_tx 2 [1, 2, 3] 0 (.of_blocks numbered_memory block_of) empty_file = .Ok (3, db') :=
    (write_tx_spec hsize hwhole (by decide)).imp fun _ h => h.1
  obtain ⟨db', hwrite⟩ := hwrite
  have hplaced : Placed block_of 1 3 fun _ => none := by
    refine ⟨fun i j hij => ?_, fun i => ?_, fun k a i hk => by cases hk⟩
    · have hS : SLICE_SIZE = 512 := rfl
      unfold Memory.Apart block_of
      omega
    · unfold Memory.Apart block_of
      omega
  have hbuf : numbered_memory.read 1 3 = [1, 2, 3] := by decide
  have hmirrors : Mirrors empty_file 2 ⟨numbered_memory, fun _ => none, []⟩ := fun i =>
    (hslices i).symm
  obtain ⟨st, hrun, hafter, hptrs, _⟩ := raw_write_commits hplaced hbuf hmirrors hwrite
  exact ⟨st, db', hrun, hwrite, hafter, hptrs⟩

end sample

end file

end dbfs2
