import Rfsck.Storage.ByteFile

/-!
# Fixed-width little-endian fields

On-disk records are concatenations of fixed-width unsigned fields, least
significant byte first.  `leBytes w n` is the field of width `w` and `leNat`
reads it back.  The reader takes the first bytes of a longer string, so that a
record is decoded field by field along its concatenation.
-/

namespace Rfsck
namespace Storage

/-- The `w` bytes of a little-endian field. -/
def leBytes : Nat → Nat → Bytes
  | 0, _ => []
  | w + 1, n => UInt8.ofNat n :: leBytes w (n / 256)

/-- The number that a byte string denotes. -/
def leNat : Bytes → Nat
  | [] => 0
  | b :: bs => b.toNat + 256 * leNat bs

@[simp] theorem length_leBytes (w n : Nat) : (leBytes w n).length = w := by
  induction w generalizing n with
  | zero =>
      rfl
  | succ w ih =>
      simp [leBytes, ih]

theorem leNat_leBytes (w n : Nat) : leNat (leBytes w n) = n % 256 ^ w := by
  induction w generalizing n with
  | zero =>
      simp [leBytes, leNat, Nat.mod_one]
  | succ w ih =>
      have hbyte : (UInt8.ofNat n).toNat = n % 256 := by
        simp
      rw [leBytes, leNat, ih, hbyte, pow_succ', Nat.mod_mul]

def le32 (x : UInt32) : Bytes :=
  leBytes 4 x.toNat

def le64 (x : UInt64) : Bytes :=
  leBytes 8 x.toNat

def get32 (bs : Bytes) : UInt32 :=
  UInt32.ofNat (leNat (bs.take 4))

def get64 (bs : Bytes) : UInt64 :=
  UInt64.ofNat (leNat (bs.take 8))

@[simp] theorem length_le32 (x : UInt32) : (le32 x).length = 4 := by
  simp [le32]

@[simp] theorem length_le64 (x : UInt64) : (le64 x).length = 8 := by
  simp [le64]

@[simp] theorem get32_le32_append (x : UInt32) (bs : Bytes) :
    get32 (le32 x ++ bs) = x := by
  have htake : (le32 x ++ bs).take 4 = le32 x := by
    rw [List.take_append_of_le_length (by simp), List.take_of_length_le (by simp)]
  have hlt : x.toNat < 256 ^ 4 := by
    simpa using x.toNat_lt
  rw [get32, htake, le32, leNat_leBytes, Nat.mod_eq_of_lt hlt, UInt32.ofNat_toNat]

@[simp] theorem get64_le64_append (x : UInt64) (bs : Bytes) :
    get64 (le64 x ++ bs) = x := by
  have htake : (le64 x ++ bs).take 8 = le64 x := by
    rw [List.take_append_of_le_length (by simp), List.take_of_length_le (by simp)]
  have hlt : x.toNat < 256 ^ 8 := by
    simpa using x.toNat_lt
  rw [get64, htake, le64, leNat_leBytes, Nat.mod_eq_of_lt hlt, UInt64.ofNat_toNat]

@[simp] theorem get32_le32 (x : UInt32) : get32 (le32 x) = x := by
  have h := get32_le32_append x []
  rwa [List.append_nil] at h

end Storage
end Rfsck
