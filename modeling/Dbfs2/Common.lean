-- The shared types of the file system (common.rs) and the fixed-width decoders
-- of lib.rs: errors, permission bits, file types, times, attributes, and the
-- keys under which an inode bucket holds its fields, entries and slices.
import Dbfs2.BigEndian
import Mathlib.Data.UInt

namespace dbfs2.common

/-! ## Byte strings and text -/

abbrev Bytes := List UInt8

/-- The UTF-8 bytes of a text, `str::as_bytes`. -/
def as_bytes (s : String) : Bytes := s.toByteArray.data.toList

/-- `core::str::from_utf8`. -/
def from_utf8 (b : Bytes) : Option String := String.fromUTF8? ⟨b.toArray⟩

/-- `format!("{}", n)` of a `usize`. -/
def format_usize (n : UInt64) : String := Nat.repr n.toNat

/-- The digits of a number text: all of it, less one leading plus sign. -/
def digits_of : List Char → List Char
  | [] => []
  | c :: cs => if c = '+' then cs else c :: cs

/-- `str::parse::<usize>`: decimal digits after one optional plus sign, within 64 bits. -/
def parse_usize (s : String) : Option UInt64 :=
  let digits := digits_of s.toList
  if digits ≠ [] ∧ digits.all Char.isDigit ∧ Nat.ofDigitChars 10 digits 0 < 2 ^ 64 then
    some (UInt64.ofNat (Nat.ofDigitChars 10 digits 0))
  else none

/-- The number that a directory entry holds, `from_utf8(v).unwrap().parse().unwrap()`. -/
def parse_ino (v : Bytes) : Option UInt64 := (from_utf8 v).bind parse_usize

def ino_bytes (n : UInt64) : Bytes := as_bytes (format_usize n)

theorem from_utf8_as_bytes (s : String) : from_utf8 (as_bytes s) = some s := by
  have hb : (⟨(as_bytes s).toArray⟩ : ByteArray) = s.toByteArray := by simp [as_bytes]
  unfold from_utf8
  rw [hb]
  simp [String.fromUTF8?, String.fromUTF8, s.isValidUTF8]

theorem as_bytes_injective {s t : String} (h : as_bytes s = as_bytes t) : s = t := by
  have hs := from_utf8_as_bytes s
  rw [h, from_utf8_as_bytes] at hs
  exact (Option.some.inj hs).symm

theorem parse_format_usize (n : UInt64) : parse_usize (format_usize n) = some n := by
  have hd : (format_usize n).toList = Nat.toDigits 10 n.toNat := by simp [format_usize]
  have hdigit : ∀ c ∈ Nat.toDigits 10 n.toNat, c.isDigit = true := fun c hc =>
    Nat.isDigit_of_mem_toDigits (by omega) (by omega) hc
  have hstrip : digits_of (Nat.toDigits 10 n.toNat) = Nat.toDigits 10 n.toNat := by
    rcases hl : Nat.toDigits 10 n.toNat with _ | ⟨c, cs⟩
    · rfl
    · have hc : c ≠ '+' := by
        rintro rfl
        have := hdigit '+' (hl ▸ List.mem_cons_self)
        simp at this
      simp [digits_of, hc]
  have hall : (Nat.toDigits 10 n.toNat).all Char.isDigit = true := by
    rw [List.all_eq_true]
    exact hdigit
  unfold parse_usize
  rw [hd, hstrip]
  simp only [ne_eq, Nat.toDigits_ne_nil, not_false_eq_true, hall, Nat.ofDigitChars_ten_toDigits,
    n.toNat_lt, and_self, if_true, UInt64.ofNat_toNat]

/-- What an entry holds is the number that was put there. -/
@[simp]
theorem parse_ino_bytes (n : UInt64) : parse_ino (ino_bytes n) = some n := by
  simp [parse_ino, ino_bytes, from_utf8_as_bytes, parse_format_usize]

/-! ## Errors and results -/

inductive DbfsError where
  | PermissionDenied
  | NotFound
  | AccessError
  | FileExists
  | InvalidArgument
  | NoSpace
  | RangeError
  | NameTooLong
  | NoSys
  | NotEmpty
  | Io
  | NotSupported
  | NoData
  | Other
  deriving DecidableEq, Repr

/-- The result of a call: a value, an error, or a panic. Arithmetic that leaves its type
panics too, as in a build with overflow checks. -/
inductive DbfsResult (α : Type) where
  | Ok (a : α)
  | Err (e : DbfsError)
  | Panic
  deriving DecidableEq, Repr

namespace DbfsResult

variable {α β : Type}

def bind : DbfsResult α → (α → DbfsResult β) → DbfsResult β
  | Ok a, f => f a
  | Err e, _ => Err e
  | Panic, _ => Panic

instance : Monad DbfsResult where
  pure := Ok
  bind := bind

/-- `Option::unwrap`. -/
def unwrap : Option α → DbfsResult α
  | some a => Ok a
  | none => Panic

/-- `Result::map_err`. -/
def map_err (e : DbfsError) : DbfsResult α → DbfsResult α
  | Err _ => Err e
  | r => r

@[simp] theorem pure_eq (a : α) : (pure a : DbfsResult α) = Ok a := rfl

@[simp] theorem ok_bind (a : α) (f : α → DbfsResult β) : (Ok a >>= f) = f a := rfl

@[simp] theorem err_bind (e : DbfsError) (f : α → DbfsResult β) : (Err e >>= f) = Err e := rfl

@[simp] theorem panic_bind (f : α → DbfsResult β) : (Panic >>= f) = Panic := rfl

@[simp] theorem unwrap_some (a : α) : unwrap (some a) = Ok a := rfl

@[simp] theorem unwrap_none : unwrap (none : Option α) = Panic := rfl

theorem map_err_eq_ok {x : DbfsResult α} {e : DbfsError} {a : α} :
    map_err e x = Ok a ↔ x = Ok a := by
  cases x <;> simp [map_err]

end DbfsResult

/-! ## Permission bits and file types -/

/-- The bit flags `DbfsPermission`: every one of the 16 bits is a flag. -/
abbrev DbfsPermission := UInt16

namespace DbfsPermission

def S_IFMT : DbfsPermission := 0o170000
def S_IFSOCK : DbfsPermission := 0o140000
def S_IFLNK : DbfsPermission := 0o120000
def S_IFREG : DbfsPermission := 0o100000
def S_IFBLK : DbfsPermission := 0o060000
def S_IFDIR : DbfsPermission := 0o040000
def S_IFCHR : DbfsPermission := 0o020000
def S_IFIFO : DbfsPermission := 0o010000
def S_ISUID : DbfsPermission := 0o004000
def S_ISGID : DbfsPermission := 0o002000
def S_ISVTX : DbfsPermission := 0o001000
def S_IXUSR : DbfsPermission := 0o100
def S_IXGRP : DbfsPermission := 0o010
def S_IXOTH : DbfsPermission := 0o001

/-- All the bits of `q` are set in `p`. -/
def contains (p q : DbfsPermission) : Bool := p &&& q == q

/-- `p -= q`. -/
def remove (p q : DbfsPermission) : DbfsPermission := p &&& ~~~q

end DbfsPermission

inductive DbfsFileType where
  | NamedPipe
  | CharDevice
  | BlockDevice
  | Directory
  | RegularFile
  | Symlink
  | Socket
  deriving DecidableEq, Repr

open DbfsPermission in
/-- `From<DbfsPermission>`; `none` is the panic of an invalid type. -/
def DbfsFileType.from (value : DbfsPermission) : Option DbfsFileType :=
  if contains value S_IFSOCK then some .Socket
  else if contains value S_IFLNK then some .Symlink
  else if contains value S_IFREG then some .RegularFile
  else if contains value S_IFBLK then some .BlockDevice
  else if contains value S_IFDIR then some .Directory
  else if contains value S_IFCHR then some .CharDevice
  else if contains value S_IFIFO then some .NamedPipe
  else none

/-- The type bits of a file type. -/
def DbfsFileType.bits : DbfsFileType → DbfsPermission
  | NamedPipe => DbfsPermission.S_IFIFO
  | CharDevice => DbfsPermission.S_IFCHR
  | BlockDevice => DbfsPermission.S_IFBLK
  | Directory => DbfsPermission.S_IFDIR
  | RegularFile => DbfsPermission.S_IFREG
  | Symlink => DbfsPermission.S_IFLNK
  | Socket => DbfsPermission.S_IFSOCK

namespace DbfsPermission

/-- A test for type bits looks at nothing but the type bits. -/
theorem contains_type (p : DbfsPermission) {q : DbfsPermission} (hq : S_IFMT &&& q = q) :
    contains p q = contains (p &&& S_IFMT) q := by
  unfold contains
  rw [UInt16.and_assoc, hq]

theorem and_remove (p : DbfsPermission) {q r : DbfsPermission} (h : ~~~q &&& r = r) :
    remove p q &&& r = p &&& r := by
  rw [remove, UInt16.and_assoc, h]

theorem and_or (p : DbfsPermission) {q r : DbfsPermission} (h : q &&& r = 0) :
    (p ||| q) &&& r = p &&& r := by
  have hd : (p ||| q) &&& r = (p &&& r) ||| (q &&& r) := by
    apply UInt16.toNat_inj.mp
    simp only [UInt16.toNat_and, UInt16.toNat_or, Nat.and_or_distrib_right]
  rw [hd, h, UInt16.or_zero]

end DbfsPermission

open DbfsPermission in
theorem DbfsFileType.from_and (p : DbfsPermission) :
    DbfsFileType.from p = DbfsFileType.from (p &&& S_IFMT) := by
  unfold DbfsFileType.from
  rw [contains_type p (q := S_IFSOCK) (by decide), contains_type p (q := S_IFLNK) (by decide),
    contains_type p (q := S_IFREG) (by decide), contains_type p (q := S_IFBLK) (by decide),
    contains_type p (q := S_IFDIR) (by decide), contains_type p (q := S_IFCHR) (by decide),
    contains_type p (q := S_IFIFO) (by decide)]

/-- The type bits of each of the seven types are read back as that type. -/
theorem DbfsFileType.from_bits {p : DbfsPermission} {t : DbfsFileType}
    (h : p &&& DbfsPermission.S_IFMT = t.bits) : DbfsFileType.from p = some t := by
  rw [DbfsFileType.from_and, h]
  cases t <;> decide

/-! ## Fixed-width numbers -/

def be_u16 (n : UInt16) : Bytes := BigEndian.encode 2 n.toNat

def be_u32 (n : UInt32) : Bytes := BigEndian.encode 4 n.toNat

/-- `to_be_bytes` of a `usize` or a `u64`. -/
def be_usize (n : Nat) : Bytes := BigEndian.encode 8 n

/-- The decoder `u16!`; `none` is its panic. -/
def u16 (x : Bytes) : Option UInt16 :=
  if x.length = 2 then some (UInt16.ofNat (BigEndian.decode x)) else none

/-- The decoder `u32!`. -/
def u32 (x : Bytes) : Option UInt32 :=
  if x.length = 4 then some (UInt32.ofNat (BigEndian.decode x)) else none

/-- The decoders `usize!` and `u64!`. -/
def usize (x : Bytes) : Option Nat :=
  if x.length = 8 then some (BigEndian.decode x) else none

@[simp]
theorem u16_be (n : UInt16) : u16 (be_u16 n) = some n := by
  have h : n.toNat < 256 ^ 2 := n.toNat_lt
  simp [u16, be_u16, BigEndian.decode_encode_of_lt h]

@[simp]
theorem u32_be (n : UInt32) : u32 (be_u32 n) = some n := by
  have h : n.toNat < 256 ^ 4 := n.toNat_lt
  simp [u32, be_u32, BigEndian.decode_encode_of_lt h]

theorem usize_be {n : Nat} (h : n < 2 ^ 64) : usize (be_usize n) = some n := by
  have h' : n < 256 ^ 8 := h
  simp [usize, be_usize, BigEndian.decode_encode_of_lt h']

theorem usize_lt {x : Bytes} {n : Nat} (h : usize x = some n) : n < 2 ^ 64 := by
  unfold usize at h
  split at h
  · rename_i hl
    cases h
    have := BigEndian.decode_lt x
    rw [hl] at this
    exact this
  · cases h

/-! ## Times and attributes -/

structure DbfsTimeSpec where
  sec : UInt64
  nsec : UInt32
  deriving DecidableEq, Repr

def DbfsTimeSpec.default : DbfsTimeSpec := ⟨0, 0⟩

def DbfsTimeSpec.to_be_bytes (t : DbfsTimeSpec) : Bytes :=
  be_usize t.sec.toNat ++ be_u32 t.nsec

/-- The decoder `dbfs_time_spec!`: it reads the first twelve bytes. -/
def dbfs_time_spec (value : Bytes) : Option DbfsTimeSpec :=
  if 12 ≤ value.length then do
    let sec ← usize (value.take 8)
    let nsec ← u32 ((value.drop 8).take 4)
    pure ⟨UInt64.ofNat sec, nsec⟩
  else none

theorem dbfs_time_spec_be (t : DbfsTimeSpec) : dbfs_time_spec t.to_be_bytes = some t := by
  have h8 : (be_usize t.sec.toNat).length = 8 := by simp [be_usize]
  have h4 : (be_u32 t.nsec).length = 4 := by simp [be_u32]
  unfold dbfs_time_spec DbfsTimeSpec.to_be_bytes
  rw [List.take_left' h8, List.drop_left' h8, List.take_of_length_le (by omega),
    usize_be t.sec.toNat_lt, u32_be]
  simp [h8, h4]

structure DbfsAttr where
  ino : UInt64
  size : Nat
  blocks : Nat
  atime : DbfsTimeSpec
  mtime : DbfsTimeSpec
  ctime : DbfsTimeSpec
  crtime : DbfsTimeSpec
  kind : DbfsFileType
  perm : DbfsPermission
  nlink : UInt32
  uid : UInt32
  gid : UInt32
  rdev : UInt32
  blksize : UInt32
  padding : UInt32
  flags : UInt32
  deriving DecidableEq, Repr

end dbfs2.common
