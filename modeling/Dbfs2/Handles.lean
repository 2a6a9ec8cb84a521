-- Several handles on one directory. The place of a listing is saved under the number
-- of the directory, so a handle may go on only while the saved place is its own: in
-- between no other handle may have read, released or rewound.
import Dbfs2.Paging

namespace dbfs2

open common Tx inode file fs_type

/-! ## Passes -/

/-- The entries of a directory. -/
def Db.names (db : Db) (ino : UInt64) : Set (String × UInt64) :=
  {q | db.entry ino q.1 = some q.2}

/-- A handle's way through a directory: the offset it goes on with, what it got, and the entries
that have been there since it began. -/
structure Pass where
  offset : Nat
  received : List DbfsDirEntry
  alive : Set (String × UInt64)
  ended : Bool

namespace Pass

def start (db : Db) (ino : UInt64) : Pass := ⟨0, [], db.names ino, false⟩

/-- An empty reply ends the pass. -/
def got (p : Pass) (sent : List DbfsDirEntry) : Pass where
  offset := (sent.getLast?.map (·.offset + 1)).getD p.offset
  received := p.received ++ sent
  alive := p.alive
  ended := sent.isEmpty

/-- After a change of the directory fewer entries have been there all along. -/
def still (p : Pass) (db : Db) (ino : UInt64) : Pass := { p with alive := p.alive ∩ db.names ino }

/-- Every entry that has been there all along was received exactly once. -/
def Complete (p : Pass) : Prop :=
  ∀ q ∈ p.alive, (p.received.filter (·.name == q.1)).map (·.ino) = [q.2]

end Pass

/-- When a handle may read: the entries of the directory decode, their offsets fit, the saved place
is that of the last entry the handle got, which is still there (at the start there is none), and
the reply can hold an entry. -/
structure MayList (s : Sys) (ino : UInt64) (p : Pass) (full : Reply) : Prop where
  entries : ∃ es, Entries s.db false ino es ∧ p.offset + es.length < 2 ^ 63
  first : p.received = [] → get_readdir_table s ino = none
  place (last : DbfsDirEntry) : p.received.getLast? = some last →
    get_readdir_table s ino = some ⟨last.offset, last.name⟩ ∧
      (s.db.entry ino last.name).isSome = true
  reply (e : DbfsDirEntry) : full [] e = false

/-- The process and its handles on the directory. -/
structure World (ι : Type) where
  sys : Sys
  pass : ι → Pass

/-- The pass that a handle reads in: a new one, or the one it is in. -/
def World.Reads {ι : Type} (w : World ι) (ino : UInt64) (h : ι) (p : Pass) : Prop :=
  p = .start w.sys.db ino ∨ p = w.pass h ∧ p.received ≠ []

/-- A step of a handle within the condition, or a naming call of anyone. -/
inductive HandleStep [Features] {ι : Type} [DecidableEq ι] (ino : UInt64) (w : World ι) :
    World ι → Prop
  | readdir {h : ι} {p : Pass} {full : Reply} {sent : List DbfsDirEntry} {s' : Sys} :
      w.Reads ino h p → MayList w.sys ino p full →
      dbfs_fuse_readdir ino p.offset full w.sys = (.Ok (some sent), s') →
      HandleStep ino w ⟨s', Function.update w.pass h (p.got sent)⟩
  | releasedir (h : ι) :
      HandleStep ino w ⟨(dbfs_fuse_releasedir ino w.sys).2,
        Function.update w.pass h (.start w.sys.db ino)⟩
  | call (call : NameCall) (uid gid : UInt32) :
      HandleStep ino w ⟨(call.run uid gid w.sys).2,
        fun h => (w.pass h).still (call.run uid gid w.sys).2.db ino⟩

/-! ## One read -/

/-- What every pass keeps: what was received is in key order, and an entry that has been there all
along was received or comes after all that was. -/
structure Pass.Good (db : Db) (ino : UInt64) (p : Pass) : Prop where
  sorted : p.received.Pairwise fun e e' => generate_data_key e.name < generate_data_key e'.name
  first : p.received = [] → p.offset = 0
  place (last : DbfsDirEntry) : p.received.getLast? = some last → p.offset = last.offset + 1
  alive : p.alive ⊆ db.names ino
  covered (q : String × UInt64) : q ∈ p.alive → (∃ e ∈ p.received, e.name = q.1 ∧ e.ino = q.2) ∨
    ∀ e ∈ p.received, generate_data_key e.name < generate_data_key q.1
  ended (q : String × UInt64) : p.ended = true → q ∈ p.alive →
    ∃ e ∈ p.received, e.name = q.1 ∧ e.ino = q.2

section read

variable {s s' : Sys} {ino : UInt64} {p : Pass} {full : Reply} {sent : List DbfsDirEntry}

theorem Pass.good_start (db : Db) (ino : UInt64) : (Pass.start db ino).Good db ino where
  sorted := .nil
  first _ := rfl
  place _ h := by cases h
  alive := subset_rfl
  covered _ _ := .inr fun _ he => by cases he
  ended _ h := by cases h

theorem Pass.Good.still {db db' : Db} (h : p.Good db ino) : (p.still db' ino).Good db' ino where
  sorted := h.sorted
  first := h.first
  place := h.place
  alive := Set.inter_subset_right
  covered q hq := h.covered q hq.1
  ended q he hq := h.ended q he hq.1

theorem remaining_sublist (b : Bucket) (info : Option ReadDirInfo) :
    (remaining b info).Sublist (remaining b none) := by
  cases info with
  | none => exact .refl _
  | some i => exact List.Sublist.filter _ List.filter_sublist

/-- Within the condition the listing is that of what comes after the last entry received. -/
theorem MayList.readdir (h : MayList s ino p full) (hgood : p.Good s.db ino) :
    ∃ b info es, s.db.inodes.find? ino = some b ∧
      (∀ last, p.received.getLast? = some last → ∃ i, info = some i ∧ i.key = last.name) ∧
      (p.received = [] → info = none) ∧
      ListingOf s.db false p.offset (remaining b info) es ∧ p.offset + es.length < 2 ^ 63 ∧
      dbfs_common_readdir ino p.offset false s = (.Ok es, s) := by
  obtain ⟨es₀, ⟨b, hb, hl₀⟩, hlen₀⟩ := h.entries
  have hsub := remaining_sublist b (get_readdir_table s ino)
  have hshown : ∀ kv ∈ remaining b (get_readdir_table s ino), ∃ e, Shows s.db false kv e := by
    intro kv hkv
    obtain ⟨e, _, hs⟩ := hl₀.shown (hsub.subset hkv)
    exact ⟨e, hs⟩
  obtain ⟨es, hl⟩ := listing_exists hshown p.offset
  have hlen : p.offset + es.length < 2 ^ 63 := by
    have := hsub.length_le
    rw [← hl.length, ← hl₀.length] at this
    omega
  refine ⟨b, get_readdir_table s ino, es, hb, fun last hlast => ?_, h.first, hl, hlen,
    readdir_ok.mpr ⟨rfl, b, hb, ?_, hl, .inr (by omega)⟩⟩
  · exact ⟨_, (h.place last hlast).1, rfl⟩
  · rcases List.eq_nil_or_concat p.received with hnil | ⟨ys, last, hlast⟩
    · rw [h.first hnil]
      trivial
    · have hlast : p.received.getLast? = some last := by simp [hlast]
      obtain ⟨hplace, hthere⟩ := h.place last hlast
      rw [hplace]
      refine ⟨hgood.place last hlast, by omega, ?_⟩
      obtain ⟨i, hi⟩ := Option.isSome_iff_exists.mp hthere
      obtain ⟨v, hv, _⟩ := Option.bind_eq_some_iff.mp hi
      rw [Db.get, Store.get, hb, Option.bind_some] at hv
      rw [hv]
      rfl

/-- A reply that can hold an entry takes a part of the listing from its start, and nothing only of
nothing. -/
theorem fuse_readdir_initial {es : List DbfsDirEntry} {offset : Nat} {plus : Bool}
    (hread : dbfs_common_readdir ino offset plus s = (.Ok es, s)) (hone : ∀ e, full [] e = false)
    (h : fuse_readdir plus ino offset full s = (.Ok (some sent), s')) :
    s'.db = s.db ∧ ∃ rest, es = sent ++ rest ∧ (sent = [] → es = []) := by
  rcases fuse_readdir_cases hread h with ⟨rfl, rfl, rfl⟩ | ⟨ys, last, he, rfl, rfl, _⟩ |
    ⟨x, zs, rfl, rfl, hx⟩
  · exact ⟨rfl, [], rfl, fun _ => rfl⟩
  · exact ⟨rfl, [], (List.append_nil _).symm, id⟩
  · refine ⟨rfl, x :: zs, rfl, ?_⟩
    rintro rfl
    rw [hone x] at hx
    cases hx

theorem fuse_readdir_total {es : List DbfsDirEntry} {offset : Nat}
    (hread : dbfs_common_readdir ino offset false s = (.Ok es, s))
    (hoff : ∀ x ∈ es, x.offset + 1 < 2 ^ 63) :
    ∃ sent s', fuse_readdir false ino offset full s = (.Ok (some sent), s') := by
  have hattr : false = true → ∀ x ∈ es, x.attr.isSome = true := fun h => by cases h
  obtain ⟨out, stop, hadd⟩ := add_entries_total hattr hoff full []
  rw [fuse_readdir_of_listing hread, hadd]
  rcases es.getLast? with _ | last
  · exact ⟨_, _, rfl⟩
  · rcases stop with _ | x
    · exact ⟨_, _, rfl⟩
    · exact ⟨_, _, rfl⟩

/-- Nothing that was received comes after the last. -/
theorem Pass.Good.le_last {db : Db} (h : p.Good db ino) {last e : DbfsDirEntry}
    (hlast : p.received.getLast? = some last) (he : e ∈ p.received) :
    generate_data_key e.name ≤ generate_data_key last.name := by
  obtain ⟨ys, hys⟩ := List.getLast?_eq_some_iff.mp hlast
  have hsorted := h.sorted
  rw [hys] at he hsorted
  rw [List.pairwise_append] at hsorted
  rcases List.mem_append.mp he with he | he
  · exact (hsorted.2.2 e he last List.mem_cons_self).le
  · rw [List.mem_singleton.mp he]

/-- A reply within the condition keeps the pass good. -/
theorem Pass.Good.got (hgood : p.Good s.db ino) (hmay : MayList s ino p full)
    (hcall : dbfs_fuse_readdir ino p.offset full s = (.Ok (some sent), s')) :
    (p.got sent).Good s'.db ino := by
  obtain ⟨b, info, es, hb, hinfo, hnone, hl, hlen, hread⟩ := hmay.readdir hgood
  obtain ⟨hdb, rest, rfl, hempty⟩ := fuse_readdir_initial hread hmay.reply hcall
  have hsorted := hl.sorted (sorted_remaining b info)
  rw [List.pairwise_append] at hsorted
  have hafter : ∀ e ∈ p.received, ∀ e' ∈ sent,
      generate_data_key e.name < generate_data_key e'.name := by
    intro e he e' he'
    obtain ⟨ys, last, hlast⟩ := (List.eq_nil_or_concat p.received).resolve_left
      (List.ne_nil_of_mem he)
    have hlast : p.received.getLast? = some last := by simp [hlast]
    obtain ⟨i, hi, hkey⟩ := hinfo last hlast
    obtain ⟨⟨k, v⟩, hkv, hs⟩ := hl.stored (List.mem_append_left rest he')
    have hlt := (mem_remaining.mp hkv).2.2 i hi
    rw [hkey, show k = _ from hs.key] at hlt
    exact (hgood.le_last hlast he).trans_lt hlt
  -- what has been there all along and comes after all that was received is listed now
  have hpending : ∀ q ∈ p.alive,
      (∀ e ∈ p.received, generate_data_key e.name < generate_data_key q.1) →
      ∃ e ∈ sent ++ rest, e.name = q.1 ∧ e.ino = q.2 := by
    intro q hq hlt
    obtain ⟨v, hv, hi⟩ := Option.bind_eq_some_iff.mp (hgood.alive hq)
    rw [Db.get, Store.get, hb, Option.bind_some] at hv
    have hmem : (generate_data_key q.1, v) ∈ remaining b info := by
      refine mem_remaining.mpr ⟨hv, by simp, fun i hi => ?_⟩
      rcases List.eq_nil_or_concat p.received with hnil | ⟨ys, last, hlast⟩
      · rw [hnone hnil] at hi
        cases hi
      · obtain ⟨j, hj, hkey⟩ := hinfo last (by simp [hlast])
        cases hj.symm.trans hi
        rw [hkey]
        exact hlt last (by simp [hlast])
    obtain ⟨e, he, hs⟩ := hl.shown hmem
    exact ⟨e, he, (generate_data_key_injective hs.key).symm,
      Option.some.inj (hs.value.symm.trans hi)⟩
  rw [hdb]
  refine ⟨?_, fun h => ?_, fun last hlast => ?_, hgood.alive, fun q hq => ?_, fun q he hq => ?_⟩
  · exact List.pairwise_append.mpr ⟨hgood.sorted, hsorted.1, hafter⟩
  · obtain ⟨h1, rfl⟩ := List.append_eq_nil_iff.mp h
    exact hgood.first h1
  · rcases List.eq_nil_or_concat sent with rfl | ⟨ys, l, rfl⟩
    · exact hgood.place last (by simpa [Pass.got] using hlast)
    · simp [Pass.got] at hlast ⊢
      rw [hlast]
  · rcases hgood.covered q hq with ⟨e, he, hname⟩ | hlt
    · exact .inl ⟨e, List.mem_append_left _ he, hname⟩
    · obtain ⟨e, he, hname, hino⟩ := hpending q hq hlt
      rcases List.mem_append.mp he with he | he
      · exact .inl ⟨e, List.mem_append_right _ he, hname, hino⟩
      · refine .inr fun e' he' => ?_
        rcases List.mem_append.mp he' with he' | he'
        · exact hlt e' he'
        · rw [← hname]
          exact hsorted.2.2 e' he' e he
  · have hsent : sent = [] := List.isEmpty_iff.mp he
    rcases hgood.covered q hq with ⟨e, he, hname⟩ | hlt
    · exact ⟨e, List.mem_append_left _ he, hname⟩
    · obtain ⟨e, he, _⟩ := hpending q hq hlt
      rw [hempty hsent] at he
      cases he

/-- Names in key order are received once. -/
theorem filter_name {l : List DbfsDirEntry} {e : DbfsDirEntry}
    (h : l.Pairwise fun e e' => generate_data_key e.name < generate_data_key e'.name)
    (he : e ∈ l) : l.filter (·.name == e.name) = [e] := by
  induction l with
  | nil => cases he
  | cons x l ih =>
    rw [List.pairwise_cons] at h
    rcases List.mem_cons.mp he with rfl | he
    · have hnone : ∀ y ∈ l, ¬ (y.name == e.name) = true := fun y hy heq => by
        have := h.1 y hy
        rw [beq_iff_eq.mp heq] at this
        exact lt_irrefl _ this
      rw [List.filter_cons_of_pos (by simp), List.filter_eq_nil_iff.mpr hnone]
    · have hne : ¬ (x.name == e.name) = true := fun heq => by
        have := h.1 e he
        rw [beq_iff_eq.mp heq] at this
        exact lt_irrefl _ this
      rw [List.filter_cons_of_neg (by exact hne), ih h.2 he]

theorem Pass.Good.complete {db : Db} (h : p.Good db ino) (hended : p.ended = true) :
    p.Complete := by
  intro q hq
  obtain ⟨e, he, hname, hino⟩ := h.ended q hended hq
  rw [← hname, filter_name h.sorted he, List.map_singleton, hino]

end read

/-! ## Every run -/

section runs

variable [Features] {ι : Type} [DecidableEq ι] {ino : UInt64} {w w₀ : World ι}

theorem step_good {w' : World ι} (h : ∀ i, (w.pass i).Good w.sys.db ino)
    (hstep : HandleStep ino w w') : ∀ i, (w'.pass i).Good w'.sys.db ino := by
  intro i
  cases hstep with
  | @readdir j p full sent s' hreads hmay hcall =>
    have hp : p.Good w.sys.db ino := by
      rcases hreads with rfl | ⟨rfl, _⟩
      · exact Pass.good_start ..
      · exact h j
    have hgot := hp.got hmay hcall
    by_cases hi : i = j
    · subst hi
      simpa using hgot
    · obtain ⟨_, _, _, _, _, _, _, _, hread⟩ := hmay.readdir hp
      have hdb := (fuse_readdir_initial hread hmay.reply hcall).1
      simpa [Function.update_of_ne hi, hdb] using h i
  | releasedir j =>
    have hdb : (dbfs_fuse_releasedir ino w.sys).2.db = w.sys.db := rfl
    by_cases hi : i = j
    · subst hi
      simpa [hdb] using Pass.good_start w.sys.db ino
    · simpa [Function.update_of_ne hi, hdb] using h i
  | call call uid gid => exact (h i).still

/-- In every run of handles and naming calls whose reads are all within the condition, no read
within the condition panics, and every pass that has ended is complete. -/
theorem interleaved_passes_complete (hstart : ∀ h, w₀.pass h = .start w₀.sys.db ino)
    (hrun : Relation.ReflTransGen (HandleStep ino) w₀ w) :
    (∀ h, (w.pass h).ended = true → (w.pass h).Complete) ∧
      ∀ h p full, w.Reads ino h p → MayList w.sys ino p full →
        ∃ sent s', dbfs_fuse_readdir ino p.offset full w.sys = (.Ok (some sent), s') := by
  have hgood : ∀ h, (w.pass h).Good w.sys.db ino := by
    induction hrun with
    | refl =>
      intro h
      rw [hstart h]
      exact Pass.good_start ..
    | tail _ hstep ih => exact step_good ih hstep
  refine ⟨fun h => (hgood h).complete, fun h p full hreads hmay => ?_⟩
  have hp : p.Good w.sys.db ino := by
    rcases hreads with rfl | ⟨rfl, _⟩
    · exact Pass.good_start ..
    · exact hgood h
  obtain ⟨_, _, es, _, _, _, hl, hlen, hread⟩ := hmay.readdir hp
  refine fuse_readdir_total hread fun x hx => ?_
  have := hl.offset_lt hx
  omega

end runs

/-! ## Two handles -/

section sample

attribute [local instance] sli512_features

/-- A reply that is never full. -/
def roomy : Reply := fun _ _ => false

def dot_entry : DbfsDirEntry := ⟨1, 0, .Directory, ".", none⟩

def root_read : Sys := (dbfs_fuse_readdir 1 0 roomy root_only).2

/-- One handle has read the root; a second one starts at offset 0, and its call panics. -/
theorem second_handle_panics :
    (dbfs_fuse_readdir 1 0 roomy root_only).1 = .Ok (some [dot_entry]) ∧
      (dbfs_fuse_readdir 1 0 roomy root_read).1 = .Panic := by
  exact ⟨by decide +kernel, by decide +kernel⟩

def create_beside_d : NameCall :=
  .create 1 "f" .default (DbfsPermission.S_IFREG ||| 0o644) none none

def f_entry : DbfsDirEntry := ⟨3, 2, .RegularFile, "f", none⟩

/-- A handle reads the root, a file is made there, and the handle reads on and is released. Then
another handle reads. -/
def first_read : Sys := (dbfs_fuse_readdir 1 0 roomy root_and_d).2

def file_added : Sys := (create_beside_d.run 0 0 first_read).2

def read_on : Sys := (dbfs_fuse_readdir 1 2 roomy file_added).2

def released : Sys := (dbfs_fuse_releasedir 1 read_on).2

def other_read : Sys := (dbfs_fuse_readdir 1 0 roomy released).2

def first_page : Pass := (Pass.start root_and_d.db 1).got root_and_d_entries

def first_pass : Pass := (first_page.still file_added.db 1).got [f_entry]

def other_pass : Pass := (Pass.start released.db 1).got (root_and_d_entries ++ [f_entry])

/-- Two handles. -/
def two_handles (s : Sys) (p q : Pass) : World Bool := ⟨s, fun h => bif h then q else p⟩

section steps

variable {s s' : Sys} {p q : Pass}

theorem two_handles_update_first (p' : Pass) :
    Function.update (two_handles s p q).pass false p' = (two_handles s p' q).pass :=
  funext fun h => by cases h <;> rfl

theorem two_handles_update_other (q' : Pass) :
    Function.update (two_handles s p q).pass true q' = (two_handles s p q').pass :=
  funext fun h => by cases h <;> rfl

theorem two_handles_first {p' : Pass} {full : Reply} {sent : List DbfsDirEntry}
    (hreads : (two_handles s p q).Reads 1 false p') (hmay : MayList s 1 p' full)
    (hcall : dbfs_fuse_readdir 1 p'.offset full s = (.Ok (some sent), s')) :
    HandleStep 1 (two_handles s p q) (two_handles s' (p'.got sent) q) := by
  have hstep := HandleStep.readdir hreads hmay hcall
  rwa [two_handles_update_first] at hstep

theorem two_handles_other {q' : Pass} {full : Reply} {sent : List DbfsDirEntry}
    (hreads : (two_handles s p q).Reads 1 true q') (hmay : MayList s 1 q' full)
    (hcall : dbfs_fuse_readdir 1 q'.offset full s = (.Ok (some sent), s')) :
    HandleStep 1 (two_handles s p q) (two_handles s' p (q'.got sent)) := by
  have hstep := HandleStep.readdir hreads hmay hcall
  rwa [two_handles_update_other] at hstep

theorem two_handles_release :
    HandleStep 1 (two_handles s p q)
      (two_handles (dbfs_fuse_releasedir 1 s).2 (.start s.db 1) q) := by
  have hstep : HandleStep 1 (two_handles s p q) ⟨(dbfs_fuse_releasedir 1 s).2, _⟩ :=
    .releasedir false
  rwa [two_handles_update_first] at hstep

theorem two_handles_call (call : NameCall) (hrun : (call.run 0 0 s).2 = s') :
    HandleStep 1 (two_handles s p q)
      (two_handles s' (p.still s'.db 1) (q.still s'.db 1)) := by
  subst hrun
  have hpass : (fun h => ((two_handles s p q).pass h).still (call.run 0 0 s).2.db 1) =
      (two_handles s (p.still (call.run 0 0 s).2.db 1) (q.still (call.run 0 0 s).2.db 1)).pass :=
    funext fun h => by cases h <;> rfl
  have hstep : HandleStep 1 (two_handles s p q) ⟨(call.run 0 0 s).2, _⟩ := .call call 0 0
  rwa [show (two_handles s p q).sys = s from rfl, hpass] at hstep

theorem ne_nil_of_last {last : DbfsDirEntry} (h : p.received.getLast? = some last) :
    p.received ≠ [] := by
  intro hnil
  rw [hnil] at h
  cases h

/-- A handle may go on behind the last entry it got. -/
theorem may_go_on {es : List DbfsDirEntry} {last : DbfsDirEntry}
    (hlast : p.received.getLast? = some last) (hes : Entries s.db false 1 es)
    (hlen : p.offset + es.length < 2 ^ 63)
    (hplace : get_readdir_table s 1 = some ⟨last.offset, last.name⟩)
    (hthere : (s.db.entry 1 last.name).isSome = true) : MayList s 1 p roomy where
  entries := ⟨es, hes, hlen⟩
  first hnil := absurd hnil (ne_nil_of_last hlast)
  place last' h := by
    cases hlast.symm.trans h
    exact ⟨hplace, hthere⟩
  reply _ := rfl

end steps

theorem entries_before : Entries root_and_d.db false 1 root_and_d_entries :=
  .of_readdir rfl (Prod.ext (by decide +kernel) rfl :
    dbfs_common_readdir 1 0 false root_and_d = (.Ok root_and_d_entries, root_and_d))

theorem entries_after {s : Sys} (h : s.db = released.db) :
    Entries s.db false 1 (root_and_d_entries ++ [f_entry]) := by
  rw [h]
  exact .of_readdir (by decide +kernel) (by decide +kernel :
    dbfs_common_readdir 1 0 false released = (.Ok (root_and_d_entries ++ [f_entry]), released))

theorem first_handle_begins (q : Pass) : HandleStep 1
    (two_handles root_and_d (.start root_and_d.db 1) q) (two_handles first_read first_page q) :=
  two_handles_first (.inl rfl) ⟨⟨_, entries_before, by decide⟩, fun _ => rfl,
    fun _ h => (by cases h), fun _ => rfl⟩ (Prod.ext (by decide +kernel) rfl)

theorem first_handle_reads_on (q : Pass) :
    HandleStep 1 (two_handles file_added (first_page.still file_added.db 1) q)
      (two_handles read_on first_pass q) := by
  have hlast : (first_page.still file_added.db 1).received.getLast? =
      some ⟨2, 1, .Directory, "d", none⟩ := rfl
  have hok : (dbfs_fuse_readdir 1 2 roomy file_added).1 = .Ok (some [f_entry]) := by
    decide +kernel
  have hcall : dbfs_fuse_readdir 1 2 roomy file_added = (.Ok (some [f_entry]), read_on) := by
    rw [read_on, ← hok]
  exact two_handles_first (.inr ⟨rfl, ne_nil_of_last hlast⟩)
    (may_go_on hlast (entries_after (by decide +kernel)) (by decide) (by decide +kernel)
      (by decide +kernel)) hcall

theorem first_handle_ends (q : Pass) : HandleStep 1 (two_handles read_on first_pass q)
    (two_handles read_on (first_pass.got []) q) := by
  have hlast : first_pass.received.getLast? = some f_entry := rfl
  have hcall : dbfs_fuse_readdir 1 3 roomy read_on = (.Ok (some []), read_on) := by decide +kernel
  exact two_handles_first (.inr ⟨rfl, ne_nil_of_last hlast⟩)
    (may_go_on hlast (entries_after (by decide +kernel)) (by decide) (by decide +kernel)
      (by decide +kernel)) hcall

theorem other_handle_begins (p q : Pass) :
    HandleStep 1 (two_handles released p q) (two_handles other_read p other_pass) := by
  have hok : (dbfs_fuse_readdir 1 0 roomy released).1 =
      .Ok (some (root_and_d_entries ++ [f_entry])) := by decide +kernel
  have hcall : dbfs_fuse_readdir 1 0 roomy released =
      (.Ok (some (root_and_d_entries ++ [f_entry])), other_read) := by rw [other_read, ← hok]
  exact two_handles_other (.inl rfl) ⟨⟨_, entries_after rfl, by decide⟩,
    fun _ => (by decide +kernel), fun _ h => (by cases h), fun _ => rfl⟩ hcall

theorem other_handle_ends (p : Pass) : HandleStep 1 (two_handles other_read p other_pass)
    (two_handles other_read p (other_pass.got [])) := by
  have hlast : other_pass.received.getLast? = some f_entry := rfl
  have hcall : dbfs_fuse_readdir 1 3 roomy other_read = (.Ok (some []), other_read) := by
    decide +kernel
  exact two_handles_other (.inr ⟨rfl, ne_nil_of_last hlast⟩)
    (may_go_on hlast (entries_after (by decide +kernel)) (by decide) (by decide +kernel)
      (by decide +kernel)) hcall

/-- Both handles get what was there all along, the second one the new file too. -/
theorem pass_over_the_root : (first_pass.got []).Complete ∧ (other_pass.got []).Complete ∧
    ("d", 2) ∈ first_pass.alive ∧ ("f", 3) ∈ other_pass.alive := by
  have hstart : ∀ h, (two_handles root_and_d (.start root_and_d.db 1)
      (.start root_and_d.db 1)).pass h = .start root_and_d.db 1 := fun h => by cases h <;> rfl
  have hbegins := Relation.ReflTransGen.single (first_handle_begins (.start root_and_d.db 1))
  have hfirst := ((hbegins.tail (two_handles_call create_beside_d rfl)).tail
    (first_handle_reads_on _)).tail (first_handle_ends _)
  have hother := ((hfirst.tail two_handles_release).tail (other_handle_begins _ _)).tail
    (other_handle_ends _)
  refine ⟨(interleaved_passes_complete hstart hfirst).1 false rfl,
    (interleaved_passes_complete hstart hother).1 true rfl, ⟨?_, ?_⟩, ?_⟩
  · exact (by decide +kernel : root_and_d.db.entry 1 "d" = some 2)
  · exact (by decide +kernel : file_added.db.entry 1 "d" = some 2)
  · exact (by decide +kernel : released.db.entry 1 "f" = some 3)

end sample

end dbfs2
