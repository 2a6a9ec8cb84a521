-- Listings in pages. The place that a call saves is that of the entry which found the
-- reply full, and the kernel goes on after the last entry it got: the two agree only
-- when a reply holds all that is left. The table has one place for all handles.
import Dbfs2.Readdir
import Dbfs2.NameRuns

namespace dbfs2

open common Tx inode file fs_type

/-! ## One reply -/

/-- The reply that holds `sent` has room for some more entries. -/
def HoldsAll (full : Reply) : List DbfsDirEntry → List DbfsDirEntry → Prop
  | _, [] => True
  | sent, x :: xs => full sent x = false ∧ HoldsAll full (sent ++ [x]) xs

section reply

variable {plus : Bool} {full : Reply} {xs sent out : List DbfsDirEntry}
  {stop : Option DbfsDirEntry}

theorem add_entries_spec (h : add_entries plus full xs sent = some (out, stop)) :
    stop = none ∧ out = sent ++ xs ∧ HoldsAll full sent xs ∧ (∀ x ∈ xs, x.offset + 1 < 2 ^ 63) ∨
      ∃ ys x zs, xs = ys ++ x :: zs ∧ stop = some x ∧ out = sent ++ ys ∧ full out x = true := by
  induction xs generalizing sent with
  | nil =>
    cases h
    exact .inl ⟨rfl, (List.append_nil _).symm, trivial, fun _ hx => by cases hx⟩
  | cons x xs ih =>
    unfold add_entries at h
    split_ifs at h with hx hfull
    · cases h
      exact .inr ⟨[], x, xs, rfl, rfl, (List.append_nil out).symm, hfull⟩
    · rcases ih h with ⟨rfl, rfl, hroom, hoff⟩ | ⟨ys, y, zs, rfl, rfl, rfl, hy⟩
      · refine .inl ⟨rfl, by simp, ⟨by simpa using hfull, hroom⟩, fun y hy => ?_⟩
        rcases List.mem_cons.mp hy with rfl | hy
        · exact hx.2
        · exact hoff y hy
      · exact .inr ⟨x :: ys, y, zs, rfl, rfl, by simp, hy⟩

theorem add_entries_total (hattr : plus = true → ∀ x ∈ xs, x.attr.isSome = true)
    (hoff : ∀ x ∈ xs, x.offset + 1 < 2 ^ 63) (full : Reply) (sent : List DbfsDirEntry) :
    ∃ out stop, add_entries plus full xs sent = some (out, stop) := by
  induction xs generalizing sent with
  | nil => exact ⟨sent, none, rfl⟩
  | cons x xs ih =>
    unfold add_entries
    rw [if_pos ⟨fun hp => hattr hp x List.mem_cons_self, hoff x List.mem_cons_self⟩]
    split_ifs
    · exact ⟨sent, some x, rfl⟩
    · exact ih (fun hp y hy => hattr hp y (List.mem_cons_of_mem _ hy))
        (fun y hy => hoff y (List.mem_cons_of_mem _ hy)) _

/-- A reply that holds a row has room for every entry of it in its turn. -/
theorem HoldsAll.split {ys zs : List DbfsDirEntry} {x : DbfsDirEntry}
    (h : HoldsAll full sent (ys ++ x :: zs)) : full (sent ++ ys) x = false := by
  induction ys generalizing sent with
  | nil => simpa using h.1
  | cons y ys ih => simpa using ih h.2

end reply

/-! ## One call -/

/-- The state with the place of an entry saved. -/
def saved (s : Sys) (ino : UInt64) (x : DbfsDirEntry) : Sys :=
  { s with GLOBAL_READDIR_TABLE := s.GLOBAL_READDIR_TABLE.insert ino ⟨x.offset, x.name⟩ }

section call

variable {plus : Bool} {full : Reply} {s s' : Sys} {ino : UInt64} {b : Bucket} {offset : Nat}
  {es : List DbfsDirEntry} {info : Option ReadDirInfo}

theorem get_saved (s : Sys) (ino : UInt64) (x : DbfsDirEntry) :
    get_readdir_table (saved s ino x) ino = some ⟨x.offset, x.name⟩ :=
  OrdMap.find?_insert_self ..

/-- What is left is what the place leaves, in key order. -/
theorem mem_remaining {k v : Bytes} : (k, v) ∈ remaining b info ↔
    b.find? k = some v ∧ is_data_key k = true ∧
      ∀ i, info = some i → generate_data_key i.key < k := by
  cases info with
  | none => simp [remaining, OrdMap.mem_entries]
  | some i => simp [remaining, OrdMap.mem_entriesAfter]; tauto

theorem sorted_remaining (b : Bucket) (info : Option ReadDirInfo) :
    (remaining b info).Pairwise fun a c => a.1 < c.1 := by
  cases info with
  | none => exact b.sorted.filter _
  | some i => exact (b.sorted.filter _).filter _

/-- The listing of what is left has its offsets in a row. -/
theorem ListingOf.offset_eq {db : Db} {first : Nat} {pairs : List (Bytes × Bytes)}
    {ys zs : List DbfsDirEntry} {x : DbfsDirEntry}
    (h : ListingOf db plus first pairs (ys ++ x :: zs)) : x.offset = first + ys.length := by
  have hget := congrArg (fun l => l[ys.length]?) h.2
  simpa using hget

/-- After the last entry of a listing nothing is left. -/
theorem remaining_after_last {db : Db} {first : Nat} {ys : List DbfsDirEntry} {last : DbfsDirEntry}
    (h : ListingOf db plus first (remaining b info) (ys ++ [last])) (o : Nat) :
    remaining b (some ⟨o, last.name⟩) = [] := by
  rw [List.eq_nil_iff_forall_not_mem]
  rintro ⟨k, v⟩ hkv
  obtain ⟨hfind, hk, hafter⟩ := mem_remaining.mp hkv
  have hlast : generate_data_key last.name < k := hafter _ rfl
  obtain ⟨⟨k', v'⟩, hkv', hs'⟩ := h.stored (List.mem_append_right ys List.mem_cons_self)
  have hmem : (k, v) ∈ remaining b info := mem_remaining.mpr ⟨hfind, hk, fun i hi => by
    have hlt := (mem_remaining.mp hkv').2.2 i hi
    rw [show k' = _ from hs'.key] at hlt
    exact hlt.trans hlast⟩
  obtain ⟨e, he, hs⟩ := h.shown hmem
  rw [show k = _ from hs.key] at hlast
  have hsorted := h.sorted (sorted_remaining b info)
  rw [List.pairwise_append] at hsorted
  rcases List.mem_append.mp he with he | he
  · exact lt_asymm hlast (hsorted.2.2 e he last List.mem_cons_self)
  · rw [List.mem_singleton.mp he] at hlast
    exact lt_irrefl _ hlast

/-- The turn after a whole listing finds nothing. -/
theorem readdir_after_last {ys : List DbfsDirEntry} {last : DbfsDirEntry}
    (hread : dbfs_common_readdir ino offset plus s = (.Ok (ys ++ [last]), s)) :
    dbfs_common_readdir ino (last.offset + 1) plus (saved s ino last) =
      (.Ok [], saved s ino last) := by
  obtain ⟨_, b, hb, _, hl, hlen⟩ := readdir_ok.mp hread
  obtain ⟨⟨k, v⟩, hkv, hs⟩ := hl.stored (List.mem_append_right ys List.mem_cons_self)
  have hoff := hl.offset_eq
  have hlen := hlen.resolve_left (by simp)
  rw [List.length_append, List.length_singleton] at hlen
  refine readdir_ok.mpr ⟨rfl, b, hb, ?_, ?_, .inl rfl⟩
  · rw [get_saved]
    refine ⟨rfl, by omega, ?_⟩
    rw [← hs.key, (mem_remaining.mp hkv).1]
    rfl
  · rw [get_saved, remaining_after_last hl]
    exact ⟨.nil, rfl⟩

/-- A call whose first turn lists `es`. -/
theorem fuse_readdir_of_listing (hread : dbfs_common_readdir ino offset plus s = (.Ok es, s)) :
    fuse_readdir plus ino offset full s =
      match es.getLast?, add_entries plus full es [] with
      | none, _ => (.Ok (some []), s)
      | some _, none => (.Panic, s)
      | some _, some (out, some x) => (.Ok (some out), saved s ino x)
      | some last, some (out, none) => (.Ok (some out), saved s ino last) := by
  unfold fuse_readdir
  rw [if_pos (Int.natCast_nonneg offset), Int.toNat_natCast]
  generalize ((s.db.inodes.find? ino).map (·.entries.length)).getD 0 = fuel
  rw [readdir_loop]
  beta_reduce
  rw [hread]
  rcases List.eq_nil_or_concat es with rfl | ⟨ys, last, rfl⟩
  · rfl
  · simp only [List.concat_eq_append, List.getLast?_append, List.getLast?_singleton, Option.some_or]
    rcases hadd : add_entries plus full (ys ++ [last]) [] with _ | ⟨out, _ | x⟩
    · rfl
    · change readdir_loop plus ino full (fuel + 1) (last.offset + 1) out (saved s ino last) = _
      rw [readdir_loop]
      beta_reduce
      rw [readdir_after_last (by simpa using hread)]
      rfl
    · rfl

/-- What a call replies and saves: nothing, all that it listed and the last place, or as much as the
reply holds and the place of the entry that it does not hold. -/
theorem fuse_readdir_cases {out : List DbfsDirEntry}
    (hread : dbfs_common_readdir ino offset plus s = (.Ok es, s))
    (h : fuse_readdir plus ino offset full s = (.Ok (some out), s')) :
    es = [] ∧ out = [] ∧ s' = s ∨
      (∃ ys last, es = ys ++ [last] ∧ out = es ∧ s' = saved s ino last ∧ HoldsAll full [] es ∧
        ∀ x ∈ es, x.offset + 1 < 2 ^ 63) ∨
      ∃ x zs, es = out ++ x :: zs ∧ s' = saved s ino x ∧ full out x = true := by
  rw [fuse_readdir_of_listing hread] at h
  rcases List.eq_nil_or_concat es with rfl | ⟨ys, last, rfl⟩
  · cases h
    exact .inl ⟨rfl, rfl, rfl⟩
  · simp only [List.concat_eq_append, List.getLast?_append, List.getLast?_singleton,
      Option.some_or] at h ⊢
    rcases hadd : add_entries plus full (ys ++ [last]) [] with _ | ⟨out', stop⟩
    · rw [hadd] at h
      cases h
    · rw [hadd] at h
      rcases add_entries_spec hadd with ⟨rfl, rfl, hroom, hoff⟩ | ⟨ys', x, zs, he, rfl, rfl, hx⟩
      · cases h
        exact .inr (.inl ⟨ys, last, rfl, rfl, rfl, hroom, hoff⟩)
      · cases h
        exact .inr (.inr ⟨x, zs, he, rfl, hx⟩)

/-- A call that replies with entries has listed some. -/
theorem readdir_of_fuse {out : List DbfsDirEntry}
    (h : fuse_readdir plus ino offset full s = (.Ok (some out), s')) :
    ∃ es, dbfs_common_readdir ino offset plus s = (.Ok es, s) := by
  have hstate : (dbfs_common_readdir ino offset plus s).2 = s := Fs.read_state ..
  unfold fuse_readdir at h
  rw [if_pos (Int.natCast_nonneg offset), Int.toNat_natCast, readdir_loop] at h
  beta_reduce at h
  rcases hread : dbfs_common_readdir ino offset plus s with ⟨es | e | _, s₁⟩
  · rw [hread] at hstate
    exact ⟨es, by rw [← show s₁ = s from hstate]⟩
  · rw [hread] at h
    cases h
  · rw [hread] at h
    cases h

end call

/-! ## Pages of one handle -/

/-- The entries of a directory, in key order. -/
def Entries (db : Db) (plus : Bool) (ino : UInt64) (es : List DbfsDirEntry) : Prop :=
  ∃ b, db.inodes.find? ino = some b ∧ ListingOf db plus 0 (remaining b none) es

/-- The kernel asks for page after page, each at the offset of the last entry it got, until a page
is empty; these are the entries of all pages. -/
inductive Pages (plus : Bool) (ino : UInt64) :
    (Nat → Reply) → Nat → Sys → List DbfsDirEntry → Prop
  | done {replies : Nat → Reply} {offset : Nat} {s s' : Sys} :
      fuse_readdir plus ino offset (replies 0) s = (.Ok (some []), s') →
      Pages plus ino replies offset s []
  | more {replies : Nat → Reply} {offset : Nat} {s s' : Sys} {ys rest : List DbfsDirEntry}
      {last : DbfsDirEntry} :
      fuse_readdir plus ino offset (replies 0) s = (.Ok (some (ys ++ [last])), s') →
      Pages plus ino (fun i => replies (i + 1)) (last.offset + 1) s' rest →
      Pages plus ino replies offset s (ys ++ [last] ++ rest)

section pages

variable {plus : Bool} {s : Sys} {ino : UInt64} {es : List DbfsDirEntry}

theorem Shows.unique {db : Db} {kv : Bytes × Bytes} {e e' : DbfsDirEntry}
    (h : Shows db plus kv e) (h' : Shows db plus kv e') (ho : e.offset = e'.offset) : e = e' := by
  obtain ⟨hk, hv, hkind, ha⟩ := h
  obtain ⟨hk', hv', hkind', ha'⟩ := h'
  obtain ⟨ino, offset, kind, name, attr⟩ := e
  obtain ⟨ino', offset', kind', name', attr'⟩ := e'
  obtain rfl : name = name' := generate_data_key_injective (hk.symm.trans hk')
  obtain rfl : ino = ino' := Option.some.inj (hv.symm.trans hv')
  obtain rfl : kind = kind' := Option.some.inj (hkind.symm.trans hkind')
  obtain rfl : offset = offset' := ho
  cases plus with
  | false => rw [show attr = none from ha, show attr' = none from ha']
  | true =>
    obtain ⟨a, hattr, ha⟩ := ha
    obtain ⟨a', hattr', ha'⟩ := ha'
    cases hattr.symm.trans hattr'
    rw [show attr = some a from ha, show attr' = some a from ha']

/-- Some bindings have one listing. -/
theorem ListingOf.unique {db : Db} {first : Nat} {pairs : List (Bytes × Bytes)}
    {es' : List DbfsDirEntry} (h : ListingOf db plus first pairs es)
    (h' : ListingOf db plus first pairs es') : es = es' := by
  induction pairs generalizing first es es' with
  | nil => rw [List.forall₂_nil_left_iff.mp h.1, List.forall₂_nil_left_iff.mp h'.1]
  | cons kv pairs ih =>
    obtain ⟨x, xs, rfl, hx, ho, hxs⟩ := listingOf_cons.mp h
    obtain ⟨y, ys, rfl, hy, ho', hys⟩ := listingOf_cons.mp h'
    rw [hx.unique hy (ho.trans ho'.symm), ih hxs hys]

theorem ListingOf.offset_lt {db : Db} {first : Nat} {pairs : List (Bytes × Bytes)}
    (h : ListingOf db plus first pairs es) {x : DbfsDirEntry} (hx : x ∈ es) :
    x.offset < first + es.length := by
  obtain ⟨ys, zs, rfl⟩ := List.append_of_mem hx
  rw [h.offset_eq, List.length_append, List.length_cons]
  omega

theorem ListingOf.attr {db : Db} {first : Nat} {pairs : List (Bytes × Bytes)}
    (h : ListingOf db plus first pairs es) (hplus : plus = true) :
    ∀ x ∈ es, x.attr.isSome = true := by
  intro x hx
  subst hplus
  obtain ⟨_, _, hs⟩ := h.stored hx
  obtain ⟨a, _, ha⟩ := hs.attr
  rw [ha]
  rfl

/-- Without a saved place and with fewer entries than offsets the first turn lists them all. -/
theorem Entries.readdir (h : Entries s.db plus ino es) (hsaved : get_readdir_table s ino = none)
    (hlen : es.length < 2 ^ 63) : dbfs_common_readdir ino 0 plus s = (.Ok es, s) := by
  obtain ⟨b, hb, hl⟩ := h
  refine readdir_ok.mpr ⟨rfl, b, hb, ?_, ?_, .inr (by omega)⟩
  · rw [hsaved]
    trivial
  · rw [hsaved]
    exact hl

theorem Entries.eq_of_readdir (h : Entries s.db plus ino es)
    (hsaved : get_readdir_table s ino = none) {es' : List DbfsDirEntry}
    (hread : dbfs_common_readdir ino 0 plus s = (.Ok es', s)) : es' = es := by
  obtain ⟨b, hb, hl⟩ := h
  obtain ⟨_, b', hb', _, hl', _⟩ := readdir_ok.mp hread
  obtain rfl := Option.some.inj (hb.symm.trans hb')
  rw [hsaved] at hl'
  exact hl'.unique hl

theorem Entries.of_readdir (hsaved : get_readdir_table s ino = none)
    (hread : dbfs_common_readdir ino 0 plus s = (.Ok es, s)) : Entries s.db plus ino es := by
  obtain ⟨_, b, hb, _, hl, _⟩ := readdir_ok.mp hread
  rw [hsaved] at hl
  exact ⟨b, hb, hl⟩

/-- A page at any offset begins with a listing. -/
theorem Pages.readdir {replies : Nat → Reply} {offset : Nat} {out : List DbfsDirEntry}
    (h : Pages plus ino replies offset s out) :
    ∃ es, dbfs_common_readdir ino offset plus s = (.Ok es, s) := by
  cases h with
  | done hcall => exact readdir_of_fuse hcall
  | more hcall _ => exact readdir_of_fuse hcall

/-- Pages that name as many entries as the directory has: the first reply held them all. When it
does not, the second call panics. -/
theorem Pages.holds {replies : Nat → Reply} {out : List DbfsDirEntry}
    (h : Pages plus ino replies 0 s out) (hes : Entries s.db plus ino es)
    (hsaved : get_readdir_table s ino = none) (hlen : out.length = es.length) :
    HoldsAll (replies 0) [] es ∧ es.length < 2 ^ 63 := by
  obtain ⟨es', hread⟩ := h.readdir
  obtain rfl := hes.eq_of_readdir hsaved hread
  obtain ⟨b, _, hl⟩ := hes
  cases h with
  | done =>
    obtain rfl := List.eq_nil_of_length_eq_zero hlen.symm
    exact ⟨trivial, by simp⟩
  | @more _ _ _ s' ys rest last hcall hrest =>
    rcases fuse_readdir_cases hread hcall with ⟨_, h, _⟩ | ⟨ys', last', he, _, _, hroom, hoff⟩ |
      ⟨x, zs, he, rfl, _⟩
    · simp at h
    · refine ⟨hroom, ?_⟩
      rw [he] at hl hoff ⊢
      have hlast := hoff last' (by simp)
      rw [hl.offset_eq] at hlast
      simpa using hlast
    · -- the kernel goes on at the offset of the entry whose place was saved
      obtain ⟨es₂, hread₂⟩ := hrest.readdir
      obtain ⟨_, _, _, hres, _⟩ := readdir_ok.mp hread₂
      rw [get_saved] at hres
      have hres : last.offset + 1 = x.offset + 1 := hres.1
      rw [he] at hl
      have hx := hl.offset_eq
      rw [List.append_assoc] at hl
      have hlast := hl.offset_eq
      rw [List.length_append, List.length_singleton] at hx
      omega

end pages

/-! ## Two pages -/

section sample

attribute [local instance] sli512_features

/-- A new file system, and one with a directory in the root. -/
def root_only : Sys := start (after_calls [])

def root_and_d : Sys := ⟨after_calls [mkdir_d], 3, ∅⟩

def root_and_d_entries : List DbfsDirEntry :=
  [⟨1, 0, .Directory, ".", none⟩, ⟨2, 1, .Directory, "d", none⟩]

end sample

end dbfs2
