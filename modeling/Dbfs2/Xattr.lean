-- The extended attributes of one inode as a map: what a run of sets and removes
-- leaves under a key, against what the calls have said about it. A remove deletes
-- in a transaction that is never committed.
import Dbfs2.Access
import Dbfs2.FileSpec

namespace dbfs2

open common Tx inode attr

/-! ## The keys of attributes -/

/-- A key of one of the four namespaces. -/
def IsXattr (key : String) : Prop := ∃ ns, parse_xattr_namespace key = .Ok ns

def xattr_prefixes : List String := ["user.", "system.", "trusted.", "security."]

theorem xattr_starts {key : String} (h : IsXattr key) :
    ∃ p ∈ xattr_prefixes, starts_with (as_bytes key) p = true := by
  obtain ⟨ns, h⟩ := h
  unfold parse_xattr_namespace at h
  split_ifs at h with h1 h2 h3 h4
  · exact ⟨_, by simp [xattr_prefixes], h1⟩
  · exact ⟨_, by simp [xattr_prefixes], h2⟩
  · exact ⟨_, by simp [xattr_prefixes], h3⟩
  · exact ⟨_, by simp [xattr_prefixes], h4⟩

theorem xattr_ne_field {key : String} (h : IsXattr key) (f : Field) : as_bytes key ≠ f.key := by
  obtain ⟨p, hp, hkey⟩ := xattr_starts h
  have hall : ∀ p ∈ xattr_prefixes, ∀ g ∈ Field.all, starts_with g.key p = false := by
    decide +kernel
  intro he
  rw [he, hall p hp f f.mem_all] at hkey
  cases hkey

/-- The first byte of an attribute key is none of an entry or a slice. -/
theorem xattr_head {key : String} (h : IsXattr key) :
    (as_bytes key).head? ≠ some 0x64 ∧ (as_bytes key).head? ≠ some 0x7a := by
  obtain ⟨p, hp, hkey⟩ := xattr_starts h
  have hall : ∀ p ∈ xattr_prefixes, as_bytes p ≠ [] ∧ (as_bytes p).head? ≠ some 0x64 ∧
      (as_bytes p).head? ≠ some 0x7a := by
    decide +kernel
  obtain ⟨hne, h1, h2⟩ := hall p hp
  obtain ⟨t, ht⟩ := List.isPrefixOf_iff_prefix.mp hkey
  rw [← ht, List.head?_append_of_ne_nil _ hne]
  exact ⟨h1, h2⟩

theorem xattr_not_data {key : String} (h : IsXattr key) : is_data_key (as_bytes key) = false := by
  rw [Bool.eq_false_iff]
  intro hdata
  obtain ⟨t, ht⟩ := List.isPrefixOf_iff_prefix.mp hdata
  refine (xattr_head h).1 ?_
  rw [← ht]
  rfl

theorem xattr_ne_slice {key : String} (h : IsXattr key) (num : Nat) :
    as_bytes key ≠ slice_key num := by
  intro he
  refine (xattr_head h).2 ?_
  rw [he, slice_key, generate_data_key_with_number_eq]
  rfl

/-! ## The calls -/

inductive XattrCall where
  | set (r_uid r_gid : UInt32) (key : String) (value : Bytes) (ctime : DbfsTimeSpec)
  | remove (r_uid r_gid : UInt32) (key : String) (ctime : DbfsTimeSpec)
  deriving DecidableEq, Repr

namespace XattrCall

def key : XattrCall → String
  | set _ _ key _ _ => key
  | remove _ _ key _ => key

def IsSet : XattrCall → Prop
  | set .. => True
  | remove .. => False

def run (ino : UInt64) : XattrCall → Fs Unit
  | set r_uid r_gid key value ctime => dbfs_common_setxattr r_uid r_gid ino key value ctime
  | remove r_uid r_gid key ctime => dbfs_common_removexattr r_uid r_gid ino key ctime

/-- The requester passes the check of the call. -/
def Permitted (ino : UInt64) (db : Db) : XattrCall → Prop
  | set r_uid r_gid key _ _ => db.MayXattr ino key ACCESS_R_OK r_uid r_gid
  | remove r_uid r_gid key _ => db.MayXattr ino key ACCESS_W_OK r_uid r_gid

/-- The state after some calls. -/
def after (ino : UInt64) (calls : List XattrCall) (s : Sys) : Sys :=
  calls.foldl (fun s call => (call.run ino s).2) s

/-- The calls of a run with their results. -/
def log (ino : UInt64) : List XattrCall → Sys → List (XattrCall × DbfsResult Unit)
  | [], _ => []
  | call :: calls, s => (call, (call.run ino s).1) :: log ino calls (call.run ino s).2

/-- What a map holds under `key` after one call, if the call succeeded. -/
def mapped (key : String) (o : Option Bytes) : XattrCall × DbfsResult Unit → Option Bytes
  | (set _ _ k v _, .Ok ()) => if k = key then some v else o
  | (remove _ _ k _, .Ok ()) => if k = key then none else o
  | _ => o

/-- The value of the last successful set of `key` that no successful remove came after, where
`o` stood under the key at the start. -/
def expected (key : String) (o : Option Bytes) (log : List (XattrCall × DbfsResult Unit)) :
    Option Bytes :=
  log.foldl (mapped key) o

/-- The last call on `key`. -/
def last_call (key : String) (calls : List XattrCall) : Option XattrCall :=
  calls.reverse.find? fun call => call.key = key

end XattrCall

open XattrCall

/-- A following get with a sufficient buffer returns `o`, for whoever may read the attribute. -/
def Gives (s : Sys) (ino : UInt64) (key : String) : Option Bytes → Prop
  | none => ∀ r_uid r_gid buf, s.db.MayXattr ino key ACCESS_R_OK r_uid r_gid →
      (dbfs_common_getxattr r_uid r_gid ino key buf s).1 = .Err .NoData
  | some v => ∀ r_uid r_gid buf, s.db.MayXattr ino key ACCESS_R_OK r_uid r_gid →
      v.length ≤ buf.length → ∃ b, (dbfs_common_getxattr r_uid r_gid ino key buf s).1 =
        .Ok (v.length, b) ∧ b.take v.length = v

/-! ## One call -/

/-- What one call on `key` leaves alone. -/
structure OnlyXattr (ino : UInt64) (key : String) (db db' : Db) : Prop where
  has (n : UInt64) : db'.Has n ↔ db.Has n
  others (n : UInt64) (k : Bytes) : n ≠ ino → db'.get n k = db.get n k
  xattrs (other : String) : IsXattr other → other ≠ key →
    db'.get ino (as_bytes other) = db.get ino (as_bytes other)
  entries (k : Bytes) : is_data_key k = true → db'.get ino k = db.get ino k
  slices (num : Nat) : db'.get ino (slice_key num) = db.get ino (slice_key num)
  fields (f : Field) : f ≠ .ctime → db'.get ino f.key = db.get ino f.key

theorem OnlyXattr.refl (ino : UInt64) (key : String) (db : Db) : OnlyXattr ino key db db :=
  ⟨fun _ => Iff.rfl, fun _ _ _ => rfl, fun _ _ _ => rfl, fun _ _ => rfl, fun _ => rfl,
    fun _ _ => rfl⟩

section

variable {db db' : Db} {ino : UInt64} {key : String} {r_uid r_gid : UInt32} {mask : UInt16}

theorem mayXattr_fields (h : db.MayXattr ino key mask r_uid r_gid) : ∃ uid gid mode,
    db.u32 ino .uid = some uid ∧ db.u32 ino .gid = some gid ∧ db.u16 ino .mode = some mode ∧
      xattr_access_check key mask r_uid r_gid uid gid (mode &&& 0o777) = .Ok () := by
  simp only [Db.MayXattr, xattr_check_tx, bind_ok, get_bucket_ok, read_u32_ok, read_u16_ok,
    check_ok] at h
  obtain ⟨_, _, ⟨_, rfl⟩, uid, _, ⟨huid, rfl⟩, gid, _, ⟨hgid, rfl⟩, mode, _, ⟨hmode, rfl⟩, h,
    _⟩ := h
  exact ⟨uid, gid, mode, huid, hgid, hmode, h⟩

theorem mayXattr_isXattr (h : db.MayXattr ino key mask r_uid r_gid) : IsXattr key := by
  obtain ⟨_, _, _, _, _, _, hcheck⟩ := mayXattr_fields h
  obtain ⟨ns, hns, _⟩ := xattr_access_check_ok.mp hcheck
  exact ⟨ns, hns⟩

/-- The check reads owner, group and mode only, and no call on attributes changes these. -/
theorem OnlyXattr.may {other : String} (h : OnlyXattr ino other db db')
    (hmay : db.MayXattr ino key mask r_uid r_gid) : db'.MayXattr ino key mask r_uid r_gid := by
  obtain ⟨uid, gid, mode, huid, hgid, hmode, hcheck⟩ := mayXattr_fields hmay
  have huid' : db'.u32 ino .uid = some uid := by
    rw [Db.u32, h.fields .uid (by decide)]
    exact huid
  have hgid' : db'.u32 ino .gid = some gid := by
    rw [Db.u32, h.fields .gid (by decide)]
    exact hgid
  have hmode' : db'.u16 ino .mode = some mode := by
    rw [Db.u16, h.fields .mode (by decide)]
    exact hmode
  exact (mayXattr_iff huid' hgid' hmode').mpr hcheck

/-- What a set stores. -/
def set_xattr (db : Db) (ino : UInt64) (key : String) (value : Bytes) (ctime : DbfsTimeSpec) : Db :=
  (db.put ino (as_bytes key) value).put ino Field.ctime.key ctime.to_be_bytes

theorem setxattr_tx_iff {value : Bytes} {ctime : DbfsTimeSpec} {u : Unit} :
    setxattr_tx r_uid r_gid ino key value ctime db = .Ok (u, db') ↔
      db.MayXattr ino key ACCESS_R_OK r_uid r_gid ∧ db' = set_xattr db ino key value ctime := by
  have hsame : ∀ {db₁}, xattr_check_tx r_uid r_gid ino key ACCESS_R_OK db = .Ok ((), db₁) →
      db₁ = db ∧ db.Has ino := by
    intro db₁ h
    simp only [xattr_check_tx, bind_ok, get_bucket_ok, read_u32_ok, read_u16_ok, check_ok] at h
    obtain ⟨_, _, ⟨hn, rfl⟩, _, _, ⟨_, rfl⟩, _, _, ⟨_, rfl⟩, _, _, ⟨_, rfl⟩, _, rfl⟩ := h
    exact ⟨rfl, hn⟩
  simp only [setxattr_tx, bind_ok, put_ok]
  constructor
  · rintro ⟨_, db₁, hcheck, _, _, ⟨_, rfl⟩, _, rfl⟩
    obtain ⟨rfl, _⟩ := hsame hcheck
    exact ⟨hcheck, rfl⟩
  · rintro ⟨hmay, rfl⟩
    have hn := (hsame hmay).2
    exact ⟨(), db, hmay, (), _, ⟨hn, rfl⟩, (Db.has_put ..).mpr hn, rfl⟩

theorem onlyXattr_set (hkey : IsXattr key) (value : Bytes) (ctime : DbfsTimeSpec) :
    OnlyXattr ino key db (set_xattr db ino key value ctime) where
  has n := by simp [set_xattr]
  others n k hn := by simp [set_xattr, hn]
  xattrs other ho hne := by
    have hk : as_bytes other ≠ as_bytes key := fun e => hne (as_bytes_injective e)
    simp [set_xattr, hk, xattr_ne_field ho]
  entries k hk := by
    have hne : k ≠ as_bytes key := ne_of_is_data_key hk (xattr_not_data hkey)
    have hc : k ≠ Field.ctime.key := ne_of_is_data_key hk (by simp)
    simp [set_xattr, hne, hc]
  slices num := by
    have hc : slice_key num ≠ Field.ctime.key := (field_ne_slice_key _ num).symm
    simp [set_xattr, (xattr_ne_slice hkey num).symm, hc]
  fields f hf := by simp [set_xattr, (xattr_ne_field hkey f).symm, hf]

theorem get_set_xattr (hn : db.Has ino) (hkey : IsXattr key) (value : Bytes)
    (ctime : DbfsTimeSpec) :
    (set_xattr db ino key value ctime).get ino (as_bytes key) = some value := by
  simp [set_xattr, xattr_ne_field hkey, hn]

end

section

variable {s : Sys} {ino : UInt64} {call : XattrCall}

/-- A permitted set succeeds. -/
theorem set_run {r_uid r_gid : UInt32} {key : String} {value : Bytes} {ctime : DbfsTimeSpec}
    (h : s.db.MayXattr ino key ACCESS_R_OK r_uid r_gid) :
    (XattrCall.set r_uid r_gid key value ctime).run ino s =
      (.Ok (), { s with db := set_xattr s.db ino key value ctime }) :=
  Fs.write_ok.mpr ⟨_, setxattr_tx_iff.mpr ⟨h, rfl⟩, rfl⟩

/-- A remove changes nothing. -/
theorem remove_state (s : Sys) (ino : UInt64) (r_uid r_gid : UInt32) (key : String)
    (ctime : DbfsTimeSpec) : ((XattrCall.remove r_uid r_gid key ctime).run ino s).2 = s :=
  Fs.read_state _ s

/-- A permitted remove succeeds when there is something to remove. -/
theorem remove_result {r_uid r_gid : UInt32} {key : String} {ctime : DbfsTimeSpec}
    (h : s.db.MayXattr ino key ACCESS_W_OK r_uid r_gid) :
    ((XattrCall.remove r_uid r_gid key ctime).run ino s).1 =
      if (s.db.get ino (as_bytes key)).isSome then .Ok () else .Err .NoData := by
  obtain ⟨uid, _, _, huid, _⟩ := mayXattr_fields h
  have hn := Db.has_of_u32 huid
  simp only [run, dbfs_common_removexattr, Fs.dropped, Fs.read, removexattr_tx]
  rw [bind_of_ok h]
  by_cases hsome : (s.db.get ino (as_bytes key)).isSome
  · rw [bind_of_ok (delete_ok (u := ()).mpr ⟨hsome, rfl⟩), if_pos hsome]
    have hput := put_ok (k := Field.ctime.key) (v := ctime.to_be_bytes) (u := ()).mpr
      ⟨(Db.has_delete s.db ino ino (as_bytes key)).mpr hn, rfl⟩
    rw [hput]
  · have hfail : delete ino (as_bytes key) s.db = .Err .NoData := by
      unfold delete
      rw [if_pos hn, if_neg hsome]
    rw [bind_of_err hfail, if_neg hsome]

/-- A call changes its own key and the change time, and nothing else. -/
theorem run_only (ino : UInt64) (call : XattrCall) (s : Sys) :
    OnlyXattr ino call.key s.db (call.run ino s).2.db := by
  cases call with
  | set r_uid r_gid key value ctime =>
    rcases Fs.write_state (setxattr_tx r_uid r_gid ino key value ctime) s with h | ⟨_, db', htx, h⟩
    · rw [run, dbfs_common_setxattr, h]
      exact .refl ino key s.db
    · rw [run, dbfs_common_setxattr, h]
      obtain ⟨hmay, rfl⟩ := setxattr_tx_iff.mp htx
      exact onlyXattr_set (mayXattr_isXattr hmay) value ctime
  | remove r_uid r_gid key ctime =>
    rw [remove_state]
    exact .refl ino key s.db

theorem permitted_later {other : XattrCall} (h : call.Permitted ino s.db) :
    call.Permitted ino (other.run ino s).2.db := by
  cases call with
  | set => exact (run_only ino other s).may h
  | remove => exact (run_only ino other s).may h

end

/-! ## Whole runs -/

section

variable {s : Sys} {ino : UInt64}

theorem after_append (calls : List XattrCall) (call : XattrCall) :
    after ino (calls ++ [call]) s = (call.run ino (after ino calls s)).2 := by
  simp [after]

theorem log_append (calls : List XattrCall) (call : XattrCall) :
    log ino (calls ++ [call]) s =
      log ino calls s ++ [(call, (call.run ino (after ino calls s)).1)] := by
  induction calls generalizing s with
  | nil => rfl
  | cons c calls ih =>
    simp only [List.cons_append, log, ih]
    rfl

theorem expected_append (key : String) (o : Option Bytes) (l : List (XattrCall × DbfsResult Unit))
    (x : XattrCall × DbfsResult Unit) :
    expected key o (l ++ [x]) = mapped key (expected key o l) x := by
  simp [expected]

theorem last_call_append (key : String) (calls : List XattrCall) (call : XattrCall) :
    last_call key (calls ++ [call]) =
      if call.key = key then some call else last_call key calls := by
  simp only [last_call, List.reverse_append, List.reverse_singleton, List.singleton_append,
    List.find?_cons]
  split <;> simp_all

/-- The rights of a requester outlast every run. -/
theorem after_permitted (calls : List XattrCall) {call : XattrCall}
    (h : call.Permitted ino s.db) : call.Permitted ino (after ino calls s).db := by
  induction calls generalizing s with
  | nil => exact h
  | cons c calls ih => exact ih (permitted_later h)

/-- No call on another key changes what stands under `key`. -/
theorem run_get_ne {call : XattrCall} {key : String} (hkey : IsXattr key) (hne : call.key ≠ key) :
    (call.run ino s).2.db.get ino (as_bytes key) = s.db.get ino (as_bytes key) :=
  (run_only ino call s).xattrs key hkey (Ne.symm hne)

/-- A call on another key says nothing about `key`. -/
theorem mapped_ne {call : XattrCall} {key : String} (o : Option Bytes) (r : DbfsResult Unit)
    (hne : call.key ≠ key) : mapped key o (call, r) = o := by
  cases call with
  | set => cases r <;> first | exact if_neg hne | rfl
  | remove => cases r <;> first | exact if_neg hne | rfl

/-- What stands under a key after a run is there when it was at the start or the key was set,
whatever was removed since. -/
theorem after_isSome {key : String} (hkey : IsXattr key) {calls : List XattrCall}
    (hperm : ∀ c ∈ calls, c.Permitted ino s.db) :
    ((after ino calls s).db.get ino (as_bytes key)).isSome ↔
      (s.db.get ino (as_bytes key)).isSome ∨ ∃ c ∈ calls, c.key = key ∧ c.IsSet := by
  induction calls using List.reverseRecOn with
  | nil => simp [after]
  | append_singleton calls call ih =>
    have hcalls := ih fun c hc => hperm c (List.mem_append_left _ hc)
    have hcall := after_permitted calls (hperm call (by simp))
    have hmem : (∃ c ∈ calls ++ [call], c.key = key ∧ c.IsSet) ↔
        (∃ c ∈ calls, c.key = key ∧ c.IsSet) ∨ (call.key = key ∧ call.IsSet) := by
      simp only [List.mem_append, List.mem_singleton, or_and_right, exists_or, exists_eq_left]
    rw [after_append, hmem, ← or_assoc, ← hcalls]
    by_cases hk : call.key = key
    · cases call with
      | set r_uid r_gid k value ctime =>
        obtain rfl : k = key := hk
        obtain ⟨_, _, _, huid, _⟩ := mayXattr_fields hcall
        rw [set_run hcall, get_set_xattr (Db.has_of_u32 huid) hkey]
        simp [IsSet, XattrCall.key]
      | remove r_uid r_gid k ctime =>
        rw [remove_state]
        simp [IsSet]
    · rw [run_get_ne hkey hk]
      simp [hk]

/-- No run leaves a key without what the calls put there. -/
theorem expected_stored {key : String} (hkey : IsXattr key) {calls : List XattrCall}
    (hperm : ∀ c ∈ calls, c.Permitted ino s.db) {v : Bytes}
    (hv : expected key (s.db.get ino (as_bytes key)) (log ino calls s) = some v) :
    (after ino calls s).db.get ino (as_bytes key) = some v := by
  induction calls using List.reverseRecOn with
  | nil => exact hv
  | append_singleton calls call ih =>
    have hcalls := ih fun c hc => hperm c (List.mem_append_left _ hc)
    have hcall := after_permitted calls (hperm call (by simp))
    rw [log_append, expected_append] at hv
    rw [after_append]
    by_cases hk : call.key = key
    · cases call with
      | set r_uid r_gid k value ctime =>
        obtain rfl : k = key := hk
        obtain ⟨_, _, _, huid, _⟩ := mayXattr_fields hcall
        rw [set_run hcall] at hv ⊢
        rw [get_set_xattr (Db.has_of_u32 huid) hkey]
        simpa [mapped] using hv
      | remove r_uid r_gid k ctime =>
        obtain rfl : k = key := hk
        rw [remove_result hcall] at hv
        rw [remove_state]
        split_ifs at hv
        · simp [mapped] at hv
        · exact hcalls hv
    · rw [run_get_ne hkey hk]
      exact hcalls (by rwa [mapped_ne _ _ hk] at hv)

/-- What stands under a key is what the calls say unless the last of them is a remove that had
something to remove. -/
theorem after_get_iff {key : String} (hkey : IsXattr key) {calls : List XattrCall}
    (hperm : ∀ c ∈ calls, c.Permitted ino s.db) :
    (after ino calls s).db.get ino (as_bytes key) =
        expected key (s.db.get ino (as_bytes key)) (log ino calls s) ↔
      (∀ c, last_call key calls = some c → c.IsSet) ∨
        s.db.get ino (as_bytes key) = none ∧ ∀ c ∈ calls, c.key = key → ¬ c.IsSet := by
  induction calls using List.reverseRecOn with
  | nil => simp [after, log, expected, last_call]
  | append_singleton calls call ih =>
    have hcalls := fun c hc => hperm c (List.mem_append_left _ hc)
    have hcall := after_permitted calls (hperm call (by simp))
    rw [after_append, log_append, expected_append, last_call_append]
    by_cases hk : call.key = key
    · cases call with
      | set r_uid r_gid k value ctime =>
        obtain rfl : k = key := hk
        obtain ⟨_, _, _, huid, _⟩ := mayXattr_fields hcall
        rw [set_run hcall, get_set_xattr (Db.has_of_u32 huid) hkey]
        simp [mapped, IsSet, XattrCall.key]
      | remove r_uid r_gid k ctime =>
        obtain rfl : k = key := hk
        have hset := after_isSome hkey hcalls
        have hnever : (s.db.get ino (as_bytes k) = none ∧
            ∀ c ∈ calls ++ [remove r_uid r_gid k ctime], c.key = k → ¬ c.IsSet) ↔
              ¬ ((after ino calls s).db.get ino (as_bytes k)).isSome := by
          rw [hset, not_or, Option.not_isSome_iff_eq_none]
          simp [or_imp, forall_and, IsSet]
        rw [remove_state, remove_result hcall, hnever]
        simp only [XattrCall.key, if_true, Option.some.injEq, forall_eq', IsSet, false_or]
        by_cases hsome : ((after ino calls s).db.get ino (as_bytes k)).isSome
        · -- the delete goes through and is dropped: the value stays
          obtain ⟨v, hv⟩ := Option.isSome_iff_exists.mp hsome
          rw [if_pos hsome, hv]
          simp [mapped]
        · have hnone := Option.not_isSome_iff_eq_none.mp hsome
          have hexp : expected k (s.db.get ino (as_bytes k)) (log ino calls s) = none := by
            rw [Option.eq_none_iff_forall_ne_some]
            intro v hv
            rw [expected_stored hkey hcalls hv] at hnone
            cases hnone
          rw [if_neg hsome, hnone]
          simp [mapped, hexp]
    · rw [run_get_ne hkey hk, mapped_ne _ _ hk, if_neg hk, ih hcalls]
      simp [or_imp, forall_and, hk]

/-- A run changes no field but the change time. -/
theorem after_fields (ino : UInt64) (calls : List XattrCall) (s : Sys) {f : Field}
    (hf : f ≠ .ctime) : (after ino calls s).db.get ino f.key = s.db.get ino f.key := by
  induction calls using List.reverseRecOn with
  | nil => rfl
  | append_singleton calls call ih => rw [after_append, (run_only ino call _).fields f hf, ih]

/-- Root passes the check of a get for every key of the namespaces. -/
theorem root_mayXattr {uid gid : UInt32} {mode : UInt16} {key : String}
    (huid : s.db.u32 ino .uid = some uid) (hgid : s.db.u32 ino .gid = some gid)
    (hmode : s.db.u16 ino .mode = some mode) (hkey : IsXattr key) :
    s.db.MayXattr ino key ACCESS_R_OK 0 0 := by
  obtain ⟨ns, hns⟩ := hkey
  refine (mayXattr_iff huid hgid hmode).mpr (xattr_access_check_ok.mpr ⟨ns, hns, fun _ => ?_,
    fun _ => .inr rfl⟩)
  rw [checkout_access_iff, PosixAllows, if_pos rfl]
  exact .inl (by decide)

theorem getxattr_result {key : String} {r_uid r_gid : UInt32}
    (h : s.db.MayXattr ino key ACCESS_R_OK r_uid r_gid) (buf : Bytes) :
    (dbfs_common_getxattr r_uid r_gid ino key buf s).1 =
      match s.db.get ino (as_bytes key) with
      | none => .Err .NoData
      | some v => if buf.length = 0 then .Ok (v.length, buf)
          else if buf.length < v.length then .Err .RangeError
          else .Ok (v.length, Slices.overlay buf 0 v) := by
  obtain ⟨_, _, _, huid, _⟩ := mayXattr_fields h
  have hkv := get_kv_ok.mpr (⟨Db.has_of_u32 huid, rfl, rfl⟩ :
    s.db.Has ino ∧ s.db.get ino (as_bytes key) = s.db.get ino (as_bytes key) ∧ s.db = s.db)
  unfold dbfs_common_getxattr Fs.read getxattr_tx
  rw [bind_of_ok h, bind_of_ok hkv]
  rcases s.db.get ino (as_bytes key) with _ | v
  · rfl
  · simp only
    split_ifs <;> rfl

/-- A get returns what stands under the key. -/
theorem gives_iff {uid gid : UInt32} {mode : UInt16} {key : String}
    (huid : s.db.u32 ino .uid = some uid) (hgid : s.db.u32 ino .gid = some gid)
    (hmode : s.db.u16 ino .mode = some mode) (hkey : IsXattr key) (o : Option Bytes) :
    Gives s ino key o ↔ s.db.get ino (as_bytes key) = o := by
  have hroot := root_mayXattr huid hgid hmode hkey
  have htake : ∀ {v buf : Bytes}, v.length ≤ buf.length →
      (Slices.overlay buf 0 v).take v.length = v := by
    intro v buf _
    simp [Slices.overlay]
  constructor
  · intro h
    rcases o with _ | v
    · have hget := h 0 0 [] hroot
      rw [getxattr_result hroot] at hget
      rcases hs : s.db.get ino (as_bytes key) with _ | w
      · rfl
      · rw [hs] at hget
        simp at hget
    · obtain ⟨b, hget, hb⟩ := h 0 0 (List.replicate (v.length + 1) 0) hroot (by simp)
      rw [getxattr_result hroot] at hget
      rcases hs : s.db.get ino (as_bytes key) with _ | w
      · rw [hs] at hget
        cases hget
      · rw [hs] at hget
        simp only [List.length_replicate, Nat.add_eq_zero_iff, one_ne_zero, and_false,
          if_false] at hget
        split_ifs at hget
        simp only [DbfsResult.Ok.injEq, Prod.mk.injEq] at hget
        obtain ⟨hlen, rfl⟩ := hget
        rw [← hb, ← hlen, htake (by simp [hlen])]
  · rintro rfl
    rcases hs : s.db.get ino (as_bytes key) with _ | v
    · intro r_uid r_gid buf hmay
      rw [getxattr_result hmay, hs]
    · intro r_uid r_gid buf hmay hbuf
      rw [getxattr_result hmay, hs]
      simp only
      split_ifs with h0 h1
      · refine ⟨buf, rfl, ?_⟩
        rw [List.length_eq_zero_iff.mp h0] at hbuf ⊢
        simp_all
      · omega
      · exact ⟨_, rfl, htake hbuf⟩

end

/-- The attributes of an inode after a run of permitted calls: a get returns the value that was
set last and not removed since, for every key but those whose last call is a remove of a value
that was there. And no call touches anything but its own key and the change time. -/
theorem xattrs_map_iff (s : Sys) (ino : UInt64) (uid gid : UInt32) (mode : UInt16)
    (huid : s.db.u32 ino .uid = some uid) (hgid : s.db.u32 ino .gid = some gid)
    (hmode : s.db.u16 ino .mode = some mode) (calls : List XattrCall)
    (hperm : ∀ c ∈ calls, c.Permitted ino s.db) :
    (∀ key, IsXattr key →
      (Gives (after ino calls s) ino key
          (expected key (s.db.get ino (as_bytes key)) (log ino calls s)) ↔
        (∀ c, last_call key calls = some c → c.IsSet) ∨
          s.db.get ino (as_bytes key) = none ∧ ∀ c ∈ calls, c.key = key → ¬ c.IsSet)) ∧
    ∀ (s₁ s₂ : Sys) (call : XattrCall), call.run ino s₁ = (.Ok (), s₂) →
      OnlyXattr ino call.key s₁.db s₂.db := by
  refine ⟨fun key hkey => ?_, fun s₁ s₂ call h => ?_⟩
  · have huid' : (after ino calls s).db.u32 ino .uid = some uid := by
      rw [Db.u32, after_fields ino calls s (by decide)]
      exact huid
    have hgid' : (after ino calls s).db.u32 ino .gid = some gid := by
      rw [Db.u32, after_fields ino calls s (by decide)]
      exact hgid
    have hmode' : (after ino calls s).db.u16 ino .mode = some mode := by
      rw [Db.u16, after_fields ino calls s (by decide)]
      exact hmode
    rw [gives_iff huid' hgid' hmode' hkey]
    exact after_get_iff hkey hperm
  · have honly := run_only ino call s₁
    rw [h] at honly
    exact honly

section sample

/-- The owner of the file sets a key, or sets it and removes it again. -/
def owner_sets : XattrCall := .set 5 5 "user.a" [1] .default

def owner_removes : XattrCall := .remove 5 5 "user.a" .default

/-- The removed key is still there. -/
theorem removed_key_stays :
    (log 2 [owner_sets, owner_removes] private_file).map Prod.snd = [.Ok (), .Ok ()] ∧
      expected "user.a" (private_file.db.get 2 (as_bytes "user.a"))
        (log 2 [owner_sets, owner_removes] private_file) = none ∧
      (dbfs_common_getxattr 5 5 2 "user.a" [0]
        (after 2 [owner_sets, owner_removes] private_file)).1 = .Ok (1, [1]) := by
  refine ⟨by decide +kernel, by decide +kernel, by decide +kernel⟩

/-- The set key is given back, with a key that was never set beside it. -/
theorem set_key_is_given :
    Gives (after 2 [owner_sets] private_file) 2 "user.a" (some [1]) ∧
      Gives (after 2 [owner_sets] private_file) 2 "trusted.b" none := by
  have hperm : ∀ c ∈ [owner_sets], c.Permitted 2 private_file.db := by
    intro c hc
    rw [List.mem_singleton.mp hc]
    unfold owner_sets Permitted Db.MayXattr
    decide +kernel
  have hmap := (xattrs_map_iff private_file 2 5 5 0o100600 (by decide +kernel) (by decide +kernel)
    (by decide +kernel) [owner_sets] hperm).1
  have hexp : ∀ k, expected k (private_file.db.get 2 (as_bytes k))
      (log 2 [owner_sets] private_file) = if "user.a" = k then some [1]
        else private_file.db.get 2 (as_bytes k) := fun k => rfl
  constructor
  · have h := (hmap "user.a" ⟨.User, by decide⟩).mpr (.inl fun c hc => by cases hc; trivial)
    rwa [hexp, if_pos rfl] at h
  · have h := (hmap "trusted.b" ⟨.Trusted, by decide⟩).mpr (.inl fun c hc => nomatch hc)
    rw [hexp, if_neg (by decide)] at h
    have hb : private_file.db.get 2 (as_bytes "trusted.b") = none := by decide +kernel
    rwa [hb] at h

end sample

end dbfs2
