/-
Numbers and byte ranges in memory.

The code reads and writes integers with `memcpy` on a little-endian machine.  A
read past the end of a buffer is a fault of the model, so a function that
returns has read inside its buffer.
-/

import RedisC.Lib.Fallible
import RedisC.Lib.LittleEndian
import RedisC.Machine

namespace RedisC

open Fallible LittleEndian

def bytesU32 (value : UInt32) : Bytes := toBytes 4 value.toNat

def bytesU64 (value : UInt64) : Bytes := toBytes 8 value.toNat

def loadBytes (data : Bytes) (pos size : Nat) : Except Fault Bytes :=
  if pos + size ≤ data.length then
    .ok ((data.drop pos).take size)
  else
    .error .outOfBounds

def loadU32 (data : Bytes) (pos : Nat) : Except Fault UInt32 := do
  let bytes ← loadBytes data pos 4
  pure (UInt32.ofNat (ofBytes bytes))

def loadU64 (data : Bytes) (pos : Nat) : Except Fault UInt64 := do
  let bytes ← loadBytes data pos 8
  pure (UInt64.ofNat (ofBytes bytes))

/-- `memcpy` into a buffer. -/
def storeBytes (buf : Bytes) (pos : Nat) (bytes : Bytes) : Except Fault Bytes :=
  if pos + bytes.length ≤ buf.length then
    .ok (buf.take pos ++ (bytes ++ buf.drop (pos + bytes.length)))
  else
    .error .outOfBounds

@[simp] theorem length_bytesU32 (value : UInt32) : (bytesU32 value).length = 4 :=
  length_toBytes 4 value.toNat

@[simp] theorem length_bytesU64 (value : UInt64) : (bytesU64 value).length = 8 :=
  length_toBytes 8 value.toNat

theorem loadBytes_ok {data : Bytes} {pos size : Nat} (inside : pos + size ≤ data.length) :
    loadBytes data pos size = .ok ((data.drop pos).take size) :=
  if_pos inside

theorem loadBytes_append (before bytes after : Bytes) :
    loadBytes (before ++ (bytes ++ after)) before.length bytes.length = .ok bytes := by
  have inside : before.length + bytes.length ≤ (before ++ (bytes ++ after)).length := by
    simp only [List.length_append]
    omega
  rw [loadBytes_ok inside, List.drop_left, List.take_left]

theorem storeBytes_append {done tail bytes : Bytes} (room : bytes.length ≤ tail.length) :
    storeBytes (done ++ tail) done.length bytes =
      .ok ((done ++ bytes) ++ tail.drop bytes.length) := by
  have inside : done.length + bytes.length ≤ (done ++ tail).length := by
    rw [List.length_append]
    omega
  unfold storeBytes
  rw [if_pos inside, List.take_left, ← List.drop_drop, List.drop_left, List.append_assoc]

private theorem u32_ofBytes_bytesU32 (value : UInt32) :
    UInt32.ofNat (ofBytes (bytesU32 value)) = value := by
  rw [bytesU32, ofBytes_toBytes (Nat.lt_of_lt_of_eq value.toNat_lt (by decide))]
  exact UInt32.ofNat_toNat

private theorem u64_ofBytes_bytesU64 (value : UInt64) :
    UInt64.ofNat (ofBytes (bytesU64 value)) = value := by
  rw [bytesU64, ofBytes_toBytes (Nat.lt_of_lt_of_eq value.toNat_lt (by decide))]
  exact UInt64.ofNat_toNat

theorem bytesU32_inj {left right : UInt32} (same : bytesU32 left = bytesU32 right) :
    left = right := by
  have decoded := congrArg (fun bytes => UInt32.ofNat (ofBytes bytes)) same
  simp only [u32_ofBytes_bytesU32] at decoded
  exact decoded

theorem bytesU64_inj {left right : UInt64} (same : bytesU64 left = bytesU64 right) :
    left = right := by
  have decoded := congrArg (fun bytes => UInt64.ofNat (ofBytes bytes)) same
  simp only [u64_ofBytes_bytesU64] at decoded
  exact decoded

theorem take_bytesU32 (value : UInt32) (rest : Bytes) :
    (bytesU32 value ++ rest).take 4 = bytesU32 value :=
  List.take_left' (length_bytesU32 value)

theorem drop_bytesU32 (value : UInt32) (rest : Bytes) :
    (bytesU32 value ++ rest).drop 4 = rest :=
  List.drop_left' (length_bytesU32 value)

private theorem bytesU32_ofBytes {bytes : Bytes} (four : bytes.length = 4) :
    bytesU32 (UInt32.ofNat (ofBytes bytes)) = bytes := by
  have bounded := ofBytes_lt bytes
  rw [four] at bounded
  have same : (UInt32.ofNat (ofBytes bytes)).toNat = ofBytes bytes :=
    UInt32.toNat_ofNat_of_lt' (Nat.lt_of_lt_of_eq bounded (by decide))
  have back := toBytes_ofBytes bytes
  rw [four] at back
  rw [bytesU32, same, back]

theorem bytesU64_ofBytes {bytes : Bytes} (eight : bytes.length = 8) :
    bytesU64 (UInt64.ofNat (ofBytes bytes)) = bytes := by
  have bounded := ofBytes_lt bytes
  rw [eight] at bounded
  have same : (UInt64.ofNat (ofBytes bytes)).toNat = ofBytes bytes :=
    UInt64.toNat_ofNat_of_lt' (Nat.lt_of_lt_of_eq bounded (by decide))
  have back := toBytes_ofBytes bytes
  rw [eight] at back
  rw [bytesU64, same, back]

theorem loadU32_append (before : Bytes) (value : UInt32) (after : Bytes) :
    loadU32 (before ++ (bytesU32 value ++ after)) before.length = .ok value := by
  unfold loadU32
  rw [← length_bytesU32 value, loadBytes_append, ok_bind, u32_ofBytes_bytesU32]
  rfl

theorem loadU64_append (before : Bytes) (value : UInt64) (after : Bytes) :
    loadU64 (before ++ (bytesU64 value ++ after)) before.length = .ok value := by
  unfold loadU64
  rw [← length_bytesU64 value, loadBytes_append, ok_bind, u64_ofBytes_bytesU64]
  rfl

private theorem loadU32_eq_ok_iff {data : Bytes} {pos : Nat} (inside : pos + 4 ≤ data.length)
    {value : UInt32} :
    loadU32 data pos = .ok value ↔ (data.drop pos).take 4 = bytesU32 value := by
  have four : ((data.drop pos).take 4).length = 4 := by
    rw [List.length_take, List.length_drop]
    omega
  unfold loadU32
  rw [loadBytes_ok inside, ok_bind, pure_eq_ok]
  constructor
  · intro same
    rw [← Except.ok.inj same, bytesU32_ofBytes four]
  · intro same
    rw [same, u32_ofBytes_bytesU32]

theorem loadU32_ok {data : Bytes} {pos : Nat} (inside : pos + 4 ≤ data.length) :
    ∃ value, loadU32 data pos = .ok value ∧ (data.drop pos).take 4 = bytesU32 value := by
  have loaded : ∃ value, loadU32 data pos = .ok value := by
    unfold loadU32
    rw [loadBytes_ok inside]
    exact ⟨_, rfl⟩
  obtain ⟨value, valueEq⟩ := loaded
  exact ⟨value, valueEq, (loadU32_eq_ok_iff inside).mp valueEq⟩

end RedisC
