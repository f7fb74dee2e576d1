/-
The helpers of `utils.h`: hashing, command words and the writers of replies.

A reply is one value in a tag-length-value format.  `Value` is that format as a
type; each `out_*` function appends the encoding of a value, or for arrays the
header in front of the elements.
-/

import RedisC.Wire

namespace RedisC

def ascii (text : String) : Bytes := text.toList.map fun char => UInt8.ofNat char.toNat

/-- What a C function sees of a `std::string` through `c_str()`. -/
def cStr (text : Bytes) : Bytes := text.takeWhile fun byte => byte != 0

def toLower (byte : UInt8) : UInt8 :=
  if 65 ≤ byte ∧ byte ≤ 90 then byte + 32 else byte

/-- `0 == strcasecmp(word.c_str(), cmd)` -/
def cmdIs (word : Bytes) (cmd : String) : Bool :=
  (cStr word).map toLower == (ascii cmd).map toLower

/-- Fowler–Noll–Vo, in 32 bits. -/
def strHash (data : Bytes) : UInt64 :=
  (data.foldl (fun hash byte => (hash + byte.toUInt32) * 0x811C9DC5)
    (0x811C9DC5 : UInt32)).toUInt64

/-- An IEEE 754 binary64 number, as its bits. -/
structure Double where
  bits : UInt64
  deriving DecidableEq, Repr

def Double.magnitude (value : Double) : Nat := value.bits.toNat % 2 ^ 63

def Double.isNaN (value : Double) : Bool := decide (0x7FF0000000000000 < value.magnitude)

def serNil : UInt8 := 0
def serErr : UInt8 := 1
def serStr : UInt8 := 2
def serInt : UInt8 := 3
def serDbl : UInt8 := 4
def serArr : UInt8 := 5

def errUnknown : Int32 := 1
def err2Big : Int32 := 2
def errType : Int32 := 3
def errArg : Int32 := 4

inductive Value
  | nil
  | err (code : Int32) (msg : Bytes)
  | str (text : Bytes)
  | int (val : Int64)
  | dbl (val : Double)
  | arr (elements : List Value)

/-- The header of an array of `n` elements. -/
def arrHeader (n : UInt32) : Bytes := serArr :: bytesU32 n

mutual

/-- Lengths and counts are cut to 32 bits, and a string to its length so cut. -/
def Value.encode : Value → Bytes
  | .nil => [serNil]
  | .err code msg =>
      serErr :: (bytesU32 code.toUInt32 ++ bytesU32 (UInt32.ofNat msg.length) ++ msg)
  | .str text =>
      serStr :: (bytesU32 (UInt32.ofNat text.length) ++ text.take (text.length % 2 ^ 32))
  | .int val => serInt :: bytesU64 val.toUInt64
  | .dbl val => serDbl :: bytesU64 val.bits
  | .arr elements => arrHeader (UInt32.ofNat elements.length) ++ Value.encodeAll elements

def Value.encodeAll : List Value → Bytes
  | [] => []
  | value :: rest => Value.encode value ++ Value.encodeAll rest

end

def outNil (out : Bytes) : Bytes := out ++ [serNil]

def outStr (out text : Bytes) : Bytes :=
  let len := UInt32.ofNat text.length
  out ++ [serStr] ++ bytesU32 len ++ text.take len.toNat

def outInt (out : Bytes) (val : Int64) : Bytes :=
  out ++ [serInt] ++ bytesU64 val.toUInt64

def outErr (out : Bytes) (code : Int32) (msg : String) : Bytes :=
  out ++ [serErr] ++ bytesU32 code.toUInt32 ++
    bytesU32 (UInt32.ofNat (ascii msg).length) ++ ascii msg

def outArr (out : Bytes) (n : UInt32) : Bytes := out ++ [serArr] ++ bytesU32 n

/-- Overwrite the count of the array that `out` starts with. -/
def outUpdateArr (out : Bytes) (n : UInt32) : Except Fault Bytes :=
  if out.head? ≠ some serArr then .error (.assertion .outUpdateArr)
  else if out.length < 5 then .error .outOfBounds
  else .ok (serArr :: (bytesU32 n ++ out.drop 5))

def outDouble (out : Bytes) (val : Double) : Bytes :=
  out ++ [serDbl] ++ bytesU64 val.bits

/-! ### The writers write values -/

theorem outNil_eq (out : Bytes) : outNil out = out ++ Value.nil.encode := by
  simp [outNil, Value.encode]

theorem outStr_eq (out text : Bytes) : outStr out text = out ++ (Value.str text).encode := by
  simp [outStr, Value.encode]

theorem outInt_eq (out : Bytes) (val : Int64) :
    outInt out val = out ++ (Value.int val).encode := by
  simp [outInt, Value.encode]

theorem outErr_eq (out : Bytes) (code : Int32) (msg : String) :
    outErr out code msg = out ++ (Value.err code (ascii msg)).encode := by
  simp [outErr, Value.encode]

theorem outArr_eq (out : Bytes) (n : UInt32) : outArr out n = out ++ arrHeader n := by
  simp [outArr, arrHeader]

theorem outDouble_eq (out : Bytes) (val : Double) :
    outDouble out val = out ++ (Value.dbl val).encode := by
  simp [outDouble, Value.encode]

theorem encodeAll_append (first second : List Value) :
    Value.encodeAll (first ++ second) =
      Value.encodeAll first ++ Value.encodeAll second := by
  induction first with
  | nil => rfl
  | cons value rest ih =>
      rw [List.cons_append, Value.encodeAll, Value.encodeAll, ih, List.append_assoc]

theorem outUpdateArr_eq (old new : UInt32) (rest : Bytes) :
    outUpdateArr (arrHeader old ++ rest) new = .ok (arrHeader new ++ rest) := by
  have five : (arrHeader old).length = 5 := by
    rw [arrHeader, List.length_cons, length_bytesU32]
  have tag : (arrHeader old ++ rest).head? = some serArr := rfl
  have long : ¬(arrHeader old ++ rest).length < 5 := by
    rw [List.length_append, five]
    omega
  unfold outUpdateArr
  rw [if_neg (not_not.mpr tag), if_neg long, ← five, List.drop_left]
  rfl

end RedisC
