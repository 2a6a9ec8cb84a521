-- The directory entries of rvfs. A caller asks for their length with an empty buffer and comes back
-- with a buffer of that length; the query takes the name behind the last colon of a key, and the
-- listing the one behind the first.
import Mathlib.Algebra.Order.BigOperators.Group.List
import Mathlib.Data.List.DropRight
import Dbfs2.Listing
import Dbfs2.Paging
import Dbfs2.Rvfs

namespace dbfs2

open common Tx inode file fs_type

namespace file

/-- What is known of `Dirent64`: its length goes by that of the name, and grows with it. -/
structure Dirents where
  len : Nat → Nat
  mono : Monotone len

/-- The first part of `rsplitn(2, ':')`. -/
def after_last_colon (key : Bytes) : Bytes := key.rtakeWhile (· != 0x3a)

/-- The lengths of the entries under some keys, added to `total`. -/
def dirents_len (d : Dirents) : List (Bytes × Bytes) → Nat → Tx Nat
  | [], total => pure total
  | (key, _) :: rest, total =>
    if is_data_key key then do
      let str ← unwrap (from_utf8 key)
      let total ← add_usize total (d.len (after_last_colon (as_bytes str)).length)
      dirents_len d rest total
    else dirents_len d rest total

/-- Puts entries into a buffer of `buf_len` bytes that holds `sent`, in `count` bytes. The last part
says whether it was too small. -/
def fill (d : Dirents) (buf_len : Nat) : List DbfsDirEntry → Nat → List DbfsDirEntry →
    Option (Nat × List DbfsDirEntry × Bool)
  | [], count, sent => some (count, sent, false)
  | x :: rest, count, sent =>
    let count' := count + d.len x.name.utf8ByteSize
    if x.offset + 1 < 2 ^ 63 ∧ count' < 2 ^ 64 then
      if count' ≤ buf_len then fill d buf_len rest count' (sent ++ [x])
      else some (count, sent, true)
    else none

/-- The loop asks for sixteen entries at a time and gets all that are left. -/
def dirents_loop (d : Dirents) (ino : UInt64) (buf_len : Nat) :
    Nat → Nat → Nat → List DbfsDirEntry → Fs (StrResult (Nat × List DbfsDirEntry))
  | 0, _, _, _ => Fs.unwrap none
  | fuel + 1, offset, count, sent => fun s =>
    match dbfs_common_readdir ino offset false s with
    | (.Panic, s) => (.Panic, s)
    | (.Err _, s) => (.Ok (.error "dbfs_common_readdir error"), s)
    | (.Ok entries, s) =>
      match entries.getLast? with
      | none => (.Ok (.ok (count, sent)), s)
      | some last => (do
          let (count, sent, full) ← Fs.unwrap (fill d buf_len entries count sent)
          if full || entries.length < 16 then pure (Except.ok (count, sent))
          else do
            push_readdir_table ino ⟨last.offset, last.name⟩
            dirents_loop d ino buf_len fuel (last.offset + 1) count sent) s

def dirents_query (d : Dirents) (ino : UInt64) : Tx Nat := do
  unwrap_ok (get_bucket ino)
  let b ← bucket ino
  dirents_len d b.entries 0

/-- The number of bytes, and the entries that were written. Every turn but the last lists an entry
after those of the turns before it, so there are at most as many turns as the bucket has keys, and
one. -/
def dbfs_readdir (d : Dirents) (ino : UInt64) (buf_len : Nat) :
    Fs (StrResult (Nat × List DbfsDirEntry)) :=
  if buf_len = 0 then do
    let total ← Fs.read (dirents_query d ino)
    pure (.ok (total, []))
  else do
    Fs.read (unwrap_ok (get_bucket ino))
    pop_readdir_table ino
    fun s =>
      let keys := ((s.db.inodes.find? ino).map (·.entries.length)).getD 0
      dirents_loop d ino buf_len (keys + 2) 0 0 [] s

end file

/-! ## The query -/

section query

variable {d : Dirents} {db db' : Db} {dir : UInt64} {es : List DbfsDirEntry}

/-- The part of a key behind its last colon is one of the name. -/
theorem after_last_colon_key (name : String) :
    after_last_colon (generate_data_key name) = after_last_colon (as_bytes name) := by
  rw [generate_data_key_eq, after_last_colon, after_last_colon, List.rtakeWhile, List.rtakeWhile,
    List.reverse_append, List.takeWhile_append]
  congr 1
  split_ifs with hall
  · rw [(List.takeWhile_prefix _).eq_of_length hall]
    exact List.append_nil _
  · rfl

theorem length_after_last_colon (name : String) :
    (after_last_colon (as_bytes name)).length ≤ name.utf8ByteSize := by
  rw [← length_as_bytes]
  exact (List.rtakeWhile_suffix _ _).length_le

theorem dirents_len_ok {pairs : List (Bytes × Bytes)} {total L : Nat}
    (h : dirents_len d pairs total db = .Ok (L, db')) :
    L = total + ((pairs.filter (is_data_key ·.1)).map fun kv =>
      d.len (after_last_colon kv.1).length).sum ∧ (L < 2 ^ 64 ∨ L = total) := by
  induction pairs generalizing total with
  | nil =>
    obtain ⟨rfl, _⟩ := pure_ok.mp h
    exact ⟨rfl, .inr rfl⟩
  | cons kv pairs ih =>
    obtain ⟨key, value⟩ := kv
    unfold dirents_len at h
    split_ifs at h with hk
    · simp only [bind_ok, unwrap_ok_iff, add_usize_ok] at h
      obtain ⟨str, _, ⟨hstr, rfl⟩, _, _, ⟨hlt, rfl, rfl⟩, h⟩ := h
      rw [as_bytes_from_utf8 hstr] at hlt h
      obtain ⟨hsum, hL⟩ := ih h
      rw [List.filter_cons_of_pos (by exact hk), List.map_cons, List.sum_cons, ← Nat.add_assoc]
      refine ⟨hsum, .inl ?_⟩
      rcases hL with hL | hL
      · exact hL
      · rwa [hL]
    · rw [List.filter_cons_of_neg (by exact hk)]
      exact ih h

/-- The lengths of entries with their whole names, and with what the query takes for the names. -/
def whole_len (d : Dirents) (x : DbfsDirEntry) : Nat := d.len x.name.utf8ByteSize

def tail_len (d : Dirents) (x : DbfsDirEntry) : Nat :=
  d.len (after_last_colon (as_bytes x.name)).length

theorem tail_len_le (d : Dirents) (x : DbfsDirEntry) : tail_len d x ≤ whole_len d x :=
  d.mono (length_after_last_colon x.name)

theorem ListingOf.tail_len {first : Nat} {pairs : List (Bytes × Bytes)}
    (h : ListingOf db false first pairs es) :
    (pairs.map fun kv => d.len (after_last_colon kv.1).length).sum =
      (es.map (tail_len d)).sum := by
  induction pairs generalizing first es with
  | nil => rw [List.forall₂_nil_left_iff.mp h.1]; rfl
  | cons kv pairs ih =>
    obtain ⟨x, xs, rfl, hx, _, hxs⟩ := listingOf_cons.mp h
    rw [List.map_cons, List.map_cons, List.sum_cons, List.sum_cons, ih hxs, hx.key,
      after_last_colon_key]
    rfl

variable {s s' : Sys}

/-- The query adds up the shortened names, and leaves the state as it is. -/
theorem Entries.query (h : Entries s.db false dir es) {L : Nat} {sent : List DbfsDirEntry}
    (hquery : dbfs_readdir d dir 0 s = (.Ok (.ok (L, sent)), s')) :
    s' = s ∧ sent = [] ∧ L = (es.map (tail_len d)).sum ∧ L < 2 ^ 64 := by
  obtain ⟨b, hb, hl⟩ := h
  simp only [dbfs_readdir, if_true, Fs.bind_ok, Fs.read_ok, dirents_query, bind_ok, ok_unwrap_ok,
    get_bucket_ok, bucket_ok, Fs.pure_ok, Except.ok.injEq, Prod.mk.injEq] at hquery
  obtain ⟨_, _, ⟨⟨_, _, _, ⟨_, rfl⟩, b', _, ⟨hb', rfl⟩, hlen⟩, rfl⟩, ⟨rfl, rfl⟩, rfl⟩ := hquery
  obtain rfl := Option.some.inj (hb.symm.trans hb')
  obtain ⟨hsum, hL⟩ := dirents_len_ok hlen
  refine ⟨rfl, rfl, ?_, by omega⟩
  rw [hsum, Nat.zero_add, ← hl.tail_len]
  rfl

end query

/-! ## The listing -/

section listing

variable {d : Dirents} {dir : UInt64} {es xs sent out : List DbfsDirEntry} {s s' : Sys}
  {buf_len count c : Nat} {full : Bool}

/-- A buffer takes all entries, or the ones before the first that it has no room for. -/
theorem fill_spec (h : fill d buf_len xs count sent = some (c, out, full)) :
    full = false ∧ out = sent ++ xs ∧ c = count + (xs.map (whole_len d)).sum ∧
        (∀ x ∈ xs, x.offset + 1 < 2 ^ 63) ∨
      full = true ∧ ∃ ys x zs, xs = ys ++ x :: zs ∧ out = sent ++ ys := by
  induction xs generalizing count sent with
  | nil =>
    cases h
    exact .inl ⟨rfl, by simp, rfl, by simp⟩
  | cons x xs ih =>
    rw [fill] at h
    split_ifs at h with hsafe hfits
    · rcases ih h with ⟨rfl, rfl, rfl, hoff⟩ | ⟨rfl, ys, y, zs, rfl, rfl⟩
      · refine .inl ⟨rfl, by simp, ?_, ?_⟩
        · rw [List.map_cons, List.sum_cons, Nat.add_assoc]
          rfl
        · simpa using ⟨hsafe.1, hoff⟩
      · exact .inr ⟨rfl, x :: ys, y, zs, rfl, by simp⟩
    · cases h
      exact .inr ⟨rfl, [], x, xs, rfl, by simp⟩

theorem fill_all (hoff : ∀ x ∈ xs, x.offset + 1 < 2 ^ 63) (hbuf : buf_len < 2 ^ 64)
    (hroom : count + (xs.map (whole_len d)).sum ≤ buf_len) (sent : List DbfsDirEntry) :
    fill d buf_len xs count sent =
      some (count + (xs.map (whole_len d)).sum, sent ++ xs, false) := by
  induction xs generalizing count sent with
  | nil => simp [fill]
  | cons x xs ih =>
    simp only [List.map_cons, List.sum_cons, List.forall_mem_cons] at hroom hoff ⊢
    have hwhole : whole_len d x = d.len x.name.utf8ByteSize := rfl
    rw [fill, if_pos ⟨hoff.1, by omega⟩, if_pos (by omega), ih hoff.2 (by omega)]
    simp [hwhole, Nat.add_assoc]

/-- The state without a saved place. -/
def popped (s : Sys) (dir : UInt64) : Sys :=
  { s with GLOBAL_READDIR_TABLE := s.GLOBAL_READDIR_TABLE.erase dir }

theorem get_popped (s : Sys) (dir : UInt64) : get_readdir_table (popped s dir) dir = none :=
  OrdMap.find?_erase_self ..

theorem readdir_popped (hn : s.db.Has dir) (hbuf : buf_len ≠ 0) :
    ∃ fuel, dbfs_readdir d dir buf_len s =
      dirents_loop d dir buf_len (fuel + 2) 0 0 [] (popped s dir) := by
  refine ⟨((s.db.inodes.find? dir).map (·.entries.length)).getD 0, ?_⟩
  rw [dbfs_readdir, if_neg hbuf, Fs.bind_read,
    ok_unwrap_ok.mpr (get_bucket_ok (u := ()).mpr ⟨hn, rfl⟩)]
  rfl

/-- All entries come in the first turn, and a second one finds that there are no more. -/
theorem dirents_loop_of_listing (d : Dirents) (buf_len fuel : Nat) {ys : List DbfsDirEntry}
    {last : DbfsDirEntry}
    (hread : dbfs_common_readdir dir 0 false s = (.Ok (ys ++ [last]), s)) :
    ∃ s', dirents_loop d dir buf_len (fuel + 2) 0 0 [] s =
      match fill d buf_len (ys ++ [last]) 0 [] with
      | none => (.Panic, s)
      | some (count, sent, _) => (.Ok (.ok (count, sent)), s') := by
  rw [dirents_loop]
  beta_reduce
  rw [hread]
  simp only [List.getLast?_append, List.getLast?_singleton, Option.some_or]
  rcases fill d buf_len (ys ++ [last]) 0 [] with _ | ⟨count, sent, full⟩
  · exact ⟨s, rfl⟩
  · by_cases hstop : (full || (ys ++ [last]).length < 16) = true
    · refine ⟨s, ?_⟩
      change (if (full || (ys ++ [last]).length < 16) = true then _ else _ : Fs _) s = _
      rw [if_pos hstop]
      rfl
    · refine ⟨saved s dir last, ?_⟩
      change (if (full || (ys ++ [last]).length < 16) = true then _ else _ : Fs _) s = _
      rw [if_neg hstop]
      change dirents_loop d dir buf_len (fuel + 1) (last.offset + 1) count sent
        (saved s dir last) = _
      rw [dirents_loop]
      beta_reduce
      rw [readdir_after_last hread]
      rfl

/-- What a call with a buffer has written: all entries, or those before one that did not fit. -/
theorem Entries.written (h : Entries s.db false dir es) (hne : es ≠ []) (hbuf : buf_len ≠ 0)
    (hrun : dbfs_readdir d dir buf_len s = (.Ok (.ok (c, out)), s')) :
    out = es ∧ c = (es.map (whole_len d)).sum ∧ (∀ x ∈ es, x.offset + 1 < 2 ^ 63) ∨
      ∃ x zs, es = out ++ x :: zs := by
  have hn : s.db.Has dir := Store.has_iff.mpr (h.imp fun _ hb => hb.1)
  obtain ⟨fuel, hloop⟩ := readdir_popped (d := d) hn hbuf
  rw [hloop] at hrun
  obtain ⟨es', hread⟩ : ∃ es', dbfs_common_readdir dir 0 false (popped s dir) =
      (.Ok es', popped s dir) := by
    have hstate : (dbfs_common_readdir dir 0 false (popped s dir)).2 = popped s dir :=
      Fs.read_state ..
    rw [dirents_loop] at hrun
    beta_reduce at hrun
    rcases hread : dbfs_common_readdir dir 0 false (popped s dir) with ⟨es' | e | _, s₁⟩
    · rw [hread] at hstate
      exact ⟨es', by rw [← show s₁ = popped s dir from hstate]⟩
    · rw [hread] at hrun
      cases hrun
    · rw [hread] at hrun
      cases hrun
  obtain rfl := Entries.eq_of_readdir (s := popped s dir) h (get_popped s dir) hread
  obtain ⟨ys, last, rfl⟩ := (List.eq_nil_or_concat es').resolve_left hne
  rw [List.concat_eq_append] at hread ⊢
  obtain ⟨s₂, hturns⟩ := dirents_loop_of_listing d buf_len fuel hread
  rw [hturns] at hrun
  rcases hfill : fill d buf_len (ys ++ [last]) 0 [] with _ | ⟨count, sent, full⟩
  · rw [hfill] at hrun
    cases hrun
  · rw [hfill] at hrun
    cases hrun
    rcases fill_spec hfill with ⟨_, rfl, rfl, hoff⟩ | ⟨_, ys', x, zs, he, rfl⟩
    · exact .inl ⟨rfl, Nat.zero_add _, hoff⟩
    · exact .inr ⟨x, zs, by simpa using he⟩

theorem Entries.write_all (h : Entries s.db false dir es) (hne : es ≠ [])
    (hlen : es.length < 2 ^ 63) (hbuf : (es.map (whole_len d)).sum = buf_len)
    (hpos : buf_len ≠ 0) (hlt : buf_len < 2 ^ 64) :
    ∃ s', dbfs_readdir d dir buf_len s = (.Ok (.ok (buf_len, es)), s') := by
  have hn : s.db.Has dir := Store.has_iff.mpr (h.imp fun _ hb => hb.1)
  obtain ⟨fuel, hloop⟩ := readdir_popped (d := d) hn hpos
  have hread := Entries.readdir (s := popped s dir) h (get_popped s dir) hlen
  have hoff : ∀ x ∈ es, x.offset + 1 < 2 ^ 63 := by
    obtain ⟨_, _, hl⟩ := h
    intro x hx
    have := hl.offset_lt hx
    omega
  have hfill : fill d buf_len es 0 [] = some (buf_len, es, false) := by
    rw [fill_all hoff hlt (by omega), Nat.zero_add, hbuf, List.nil_append]
  rw [hloop]
  obtain ⟨ys, last, rfl⟩ := (List.eq_nil_or_concat es).resolve_left hne
  rw [List.concat_eq_append] at hread hfill ⊢
  obtain ⟨s₂, hturns⟩ := dirents_loop_of_listing d buf_len fuel hread
  rw [hturns, hfill]
  exact ⟨s₂, rfl⟩

end listing

/-! ## The query against the listing -/

/-- Every entry of a directory is written once. -/
structure WrittenOnce (db : Db) (dir : UInt64) (out : List DbfsDirEntry) : Prop where
  once : (out.map (·.name)).Nodup
  every (name : String) (i : UInt64) :
    (∃ x ∈ out, x.name = name ∧ x.ino = i) ↔ db.entry dir name = some i

/-- A buffer of the length that the query gave takes the whole directory. -/
def QueryFits (d : Dirents) (s : Sys) (dir : UInt64) (L : Nat) : Prop :=
  ∃ out s', dbfs_readdir d dir L s = (.Ok (.ok (L, out)), s') ∧ WrittenOnce s.db dir out

/-- What a colon cuts off the names of the directory adds nothing to the length of their entries,
which are not all empty; and there are as many as offsets at most. -/
structure WholeNames (d : Dirents) (db : Db) (dir : UInt64) : Prop where
  whole (name : String) (i : UInt64) : db.entry dir name = some i →
    d.len (after_last_colon (as_bytes name)).length = d.len name.utf8ByteSize
  some_len : ∃ name i, db.entry dir name = some i ∧ 0 < d.len name.utf8ByteSize
  few : db.data_count dir < 2 ^ 63

section fits

variable {d : Dirents} {db : Db} {dir : UInt64} {es out : List DbfsDirEntry} {s s' : Sys} {L : Nat}

theorem Entries.mem_iff (h : Entries db false dir es) {name : String} {i : UInt64} :
    (∃ x ∈ es, x.name = name ∧ x.ino = i) ↔ db.entry dir name = some i := by
  obtain ⟨b, hb, hl⟩ := h
  have hget : ∀ k, db.get dir k = b.find? k := fun k => by
    simp [Db.get, Store.get, hb]
  constructor
  · rintro ⟨x, hx, rfl, rfl⟩
    exact ((hl.mem_iff hb).mp ⟨x, hx, rfl, rfl, rfl⟩).1
  · intro hentry
    obtain ⟨v, hv, hi⟩ := Option.bind_eq_some_iff.mp hentry
    rw [hget] at hv
    obtain ⟨x, hx, hs⟩ := hl.shown (mem_remaining.mpr ⟨hv, by simp, by simp⟩)
    exact ⟨x, hx, (generate_data_key_injective hs.key).symm,
      Option.some.inj (hs.value.symm.trans hi)⟩

theorem Entries.nodup (h : Entries db false dir es) : (es.map (·.name)).Nodup := by
  obtain ⟨b, _, hl⟩ := h
  rw [List.nodup_iff_pairwise_ne, List.pairwise_map]
  refine (hl.sorted (sorted_remaining b none)).imp fun hlt he => ?_
  rw [he] at hlt
  exact lt_irrefl _ hlt

theorem Entries.writtenOnce (h : Entries db false dir es) : WrittenOnce db dir es :=
  ⟨h.nodup, fun _ _ => h.mem_iff⟩

/-- A directory that lacks an entry has not been written as a whole. -/
theorem Entries.not_writtenOnce {x : DbfsDirEntry} {zs : List DbfsDirEntry}
    (h : Entries db false dir (out ++ x :: zs)) : ¬ WrittenOnce db dir out := by
  intro hout
  obtain ⟨y, hy, hname, _⟩ := (hout.every x.name x.ino).mpr (h.mem_iff.mp ⟨x, by simp, rfl, rfl⟩)
  have hnodup := h.nodup
  rw [List.map_append, List.nodup_append] at hnodup
  exact hnodup.2.2 _ (List.mem_map_of_mem hy) _ (List.mem_map_of_mem List.mem_cons_self) hname

theorem Entries.length (h : Entries db false dir es) : es.length = db.data_count dir := by
  obtain ⟨b, hb, hl⟩ := h
  rw [hl.length, Db.data_count, Store.count, hb, Option.map_some, Option.getD_some, OrdMap.count,
    List.countP_eq_length_filter]
  rfl

/-- The two lengths agree only when those of every entry do. -/
theorem Entries.whole_of_sum (h : Entries db false dir es)
    (hsum : (es.map (tail_len d)).sum = (es.map (whole_len d)).sum) {name : String} {i : UInt64}
    (hentry : db.entry dir name = some i) :
    d.len (after_last_colon (as_bytes name)).length = d.len name.utf8ByteSize := by
  obtain ⟨x, hx, rfl, _⟩ := h.mem_iff.mpr hentry
  by_contra hne
  have hlt := List.sum_lt_sum (tail_len d) (whole_len d) (fun y _ => tail_len_le d y)
    ⟨x, hx, lt_of_le_of_ne (tail_len_le d x) hne⟩
  omega

theorem Entries.fits_iff (h : Entries s.db false dir es) (hne : es ≠ []) (hlt : L < 2 ^ 64)
    (hL : L = (es.map (tail_len d)).sum) : QueryFits d s dir L ↔ WholeNames d s.db dir := by
  constructor
  · rintro ⟨out, s', hrun, hout⟩
    by_cases hpos : L = 0
    · -- an empty buffer asks for the length once more
      rw [hpos] at hrun
      obtain ⟨_, rfl, _⟩ := h.query hrun
      obtain ⟨x, zs, rfl⟩ := List.exists_cons_of_ne_nil hne
      exact absurd hout h.not_writtenOnce
    · rcases h.written hne hpos hrun with ⟨rfl, hsum, hoff⟩ | ⟨x, zs, rfl⟩
      · refine ⟨fun name i => h.whole_of_sum (hL.symm.trans hsum), ?_, ?_⟩
        · by_contra hnone
          refine hpos (hsum.trans (List.sum_eq_zero fun y hy => ?_))
          obtain ⟨x, hx, rfl⟩ := List.mem_map.mp hy
          by_contra hx0
          exact hnone ⟨x.name, x.ino, h.mem_iff.mp ⟨x, hx, rfl, rfl⟩, Nat.pos_of_ne_zero hx0⟩
        · rw [← h.length]
          obtain ⟨_, _, hl⟩ := h
          obtain ⟨ys, last, rfl⟩ := (List.eq_nil_or_concat out).resolve_left hne
          rw [List.concat_eq_append] at hl hoff ⊢
          have hlast := hoff last (by simp)
          rw [hl.offset_eq] at hlast
          simpa using hlast
      · exact absurd hout h.not_writtenOnce
  · intro hwhole
    have hsame : es.map (whole_len d) = es.map (tail_len d) :=
      List.map_congr_left fun x hx =>
        (hwhole.whole x.name x.ino (h.mem_iff.mp ⟨x, hx, rfl, rfl⟩)).symm
    obtain ⟨name, i, hentry, hpos⟩ := hwhole.some_len
    obtain ⟨x, hx, rfl, _⟩ := h.mem_iff.mpr hentry
    have hle : whole_len d x ≤ (es.map (whole_len d)).sum :=
      List.le_sum_of_mem (List.mem_map_of_mem hx)
    have hsum : (es.map (whole_len d)).sum = L := by rw [hsame, hL]
    obtain ⟨s', hrun⟩ := h.write_all hne (h.length ▸ hwhole.few) hsum
      (Nat.pos_iff_ne_zero.mp (hpos.trans_le (hsum ▸ hle))) hlt
    exact ⟨es, s', hrun, h.writtenOnce⟩

end fits

/-- In a directory of a well-formed tree, a buffer of the length that the query gave takes all
entries when the names are whole for their length. -/
theorem query_fits_iff (d : Dirents) (s s' : Sys) (dir : UInt64) (hnames : Names s.db)
    (hnamed : Named s.db) (hkinds : ∀ n, s.db.Has n → ∃ ty, s.db.kind n = some ty)
    (hdir : s.db.IsDir dir) (L : Nat) (sent : List DbfsDirEntry)
    (hquery : dbfs_readdir d dir 0 s = (.Ok (.ok (L, sent)), s')) :
    QueryFits d s' dir L ↔ WholeNames d s.db dir := by
  obtain ⟨b, hb⟩ := Store.has_iff.mp (Db.has_of_isDir hdir)
  have hshown : ∀ kv ∈ remaining b none, ∃ e, Shows s.db false kv e := fun kv hkv =>
    hnames.shown hkinds hnamed hdir hb (by simp) hkv
  obtain ⟨es, hl⟩ := listing_exists hshown 0
  have hes : Entries s.db false dir es := ⟨b, hb, hl⟩
  obtain ⟨rfl, _, hL, hlt⟩ := hes.query hquery
  refine hes.fits_iff ?_ hlt hL
  -- every directory has an entry for itself
  rintro rfl
  obtain ⟨x, hx, _⟩ := hes.mem_iff.mpr (hnames.self_entry hdir)
  cases hx

section sample

attribute [local instance] sli512_features

/-- Nineteen bytes, the name and a zero. -/
def packed : Dirents := ⟨fun n => 20 + n, fun _ _ h => Nat.add_le_add_left h 20⟩

def make_file (name : String) : NameCall :=
  .create 1 name .default (DbfsPermission.S_IFREG ||| 0o644) none none

/-- The root of a new file system with one file. -/
def with_file (name : String) : Sys := ⟨after_calls [make_file name], 3, ∅⟩

/-- The query takes `b` for the name of `a:b`, and the entry does not fit. -/
theorem colon_entry_left_out :
    NameRun (fun _ => True) (with_file "a:b").db ∧ (with_file "a:b").db.IsDir 1 ∧
      dbfs_readdir packed 1 0 (with_file "a:b") = (.Ok (.ok (42, [])), with_file "a:b") ∧
      (dbfs_readdir packed 1 42 (with_file "a:b")).1 =
        .Ok (.ok (21, [⟨1, 0, .Directory, ".", none⟩])) ∧
      ¬ QueryFits packed (with_file "a:b") 1 42 := by
  have hlist : (dbfs_readdir packed 1 42 (with_file "a:b")).1 =
      .Ok (.ok (21, [⟨1, 0, .Directory, ".", none⟩])) := by decide +kernel
  refine ⟨(after_no_calls _).after (make_file "a:b") ⟨by decide +kernel, by decide, by decide,
    by decide +kernel, .RegularFile, by decide⟩ trivial, by decide +kernel,
    Prod.ext (by decide +kernel) rfl, hlist, ?_⟩
  rintro ⟨out, s', hrun, _⟩
  rw [hrun] at hlist
  cases hlist

theorem plain_names_fit : QueryFits packed (with_file "f") 1 42 := by
  have hrun : NameRun (fun _ => True) (with_file "f").db :=
    (after_no_calls _).after (make_file "f") ⟨by decide +kernel, by decide, by decide,
      by decide +kernel, .RegularFile, by decide⟩ trivial
  have hread : dbfs_common_readdir 1 0 false (with_file "f") =
      (.Ok [⟨1, 0, .Directory, ".", none⟩, ⟨2, 1, .RegularFile, "f", none⟩], with_file "f") :=
    Prod.ext (by decide +kernel) (Fs.read_state ..)
  have hes := Entries.of_readdir rfl hread
  refine (query_fits_iff packed (with_file "f") (with_file "f") 1 hrun.names.1 hrun.laid.2
    (fun n hn => (hrun.laid.1 n hn).kind) (by decide +kernel) 42 []
    (Prod.ext (by decide +kernel) rfl)).mpr ⟨fun name i hi => ?_, ⟨".", 1, ?_, by decide⟩, ?_⟩
  · obtain ⟨x, hx, rfl, _⟩ := hes.mem_iff.mpr hi
    simp only [List.mem_cons, List.not_mem_nil, or_false] at hx
    rcases hx with rfl | rfl <;> decide
  · decide +kernel
  · decide +kernel

end sample

end dbfs2
