/-
The response decoder of the client.

`on_response` prints what it decodes; the log of these visits is part of the
result.  Its length arithmetic is that of `uint32_t`, and the results are
`int32_t`.  `depth` bounds the recursion into arrays, each of which starts at
least five bytes later in the data.
-/

import RedisC.Utils

namespace RedisC

open Fallible

/-- One line that `on_response` prints. -/
inductive Visit
  | nil
  | err (code : Int32) (len : UInt32) (msg : Bytes)
  | str (len : UInt32) (text : Bytes)
  | int (val : Int64)
  | dbl (val : Double)
  | arr (len : UInt32)
  | arrEnd
  deriving DecidableEq, Repr

abbrev Response := Int32 × List Visit

def badResponse (log : List Visit) : Except Fault Response := .ok (-1, log)

def onErr (data : Bytes) (log : List Visit) : Except Fault Response :=
  if data.length < 1 + 8 then badResponse log
  else do
    let code ← loadU32 data 1
    let len ← loadU32 data (1 + 4)
    if data.length < (1 + 8 + len).toNat then badResponse log
    else
      let msg := (data.drop (1 + 8)).take len.toNat
      pure ((1 + 8 + len).toInt32, log ++ [.err code.toInt32 len msg])

def onStr (data : Bytes) (log : List Visit) : Except Fault Response :=
  if data.length < 1 + 4 then badResponse log
  else do
    let len ← loadU32 data 1
    if data.length < (1 + 4 + len).toNat then badResponse log
    else
      let text := (data.drop (1 + 4)).take len.toNat
      pure ((1 + 4 + len).toInt32, log ++ [.str len text])

def onWord (visit : UInt64 → Visit) (data : Bytes) (log : List Visit) : Except Fault Response :=
  if data.length < 1 + 8 then badResponse log
  else do
    let val ← loadU64 data 1
    pure (1 + 8, log ++ [visit val])

def onInt : Bytes → List Visit → Except Fault Response := onWord fun val => .int val.toInt64

def onDbl : Bytes → List Visit → Except Fault Response := onWord fun val => .dbl ⟨val⟩

/-- The loop over the elements of an array, with `arr_bytes` bytes done. -/
def arrLoop (element : Bytes → List Visit → Except Fault Response) (data : Bytes) :
    Nat → Nat → List Visit → Except Fault Response
  | 0, arrBytes, log => .ok (Int32.ofNat arrBytes, log ++ [.arrEnd])
  | n + 1, arrBytes, log => do
      let (rv, log) ← element (data.drop arrBytes) log
      if rv < 0 then pure (rv, log)
      else arrLoop element data n (arrBytes + rv.toNatClampNeg) log

def onArr (element : Bytes → List Visit → Except Fault Response) (data : Bytes)
    (log : List Visit) : Except Fault Response :=
  if data.length < 1 + 4 then badResponse log
  else do
    let len ← loadU32 data 1
    arrLoop element data len.toNat (1 + 4) (log ++ [.arr len])

def onResponseAt : Nat → Bytes → List Visit → Except Fault Response
  | 0, _, _ => .error .outOfFuel
  | _ + 1, [], log => badResponse log
  | depth + 1, tag :: rest, log =>
      if tag = serNil then .ok (1, log ++ [.nil])
      else if tag = serErr then onErr (tag :: rest) log
      else if tag = serStr then onStr (tag :: rest) log
      else if tag = serInt then onInt (tag :: rest) log
      else if tag = serDbl then onDbl (tag :: rest) log
      else if tag = serArr then onArr (onResponseAt depth) (tag :: rest) log
      else badResponse log

def onResponse (data : Bytes) : Except Fault Response := onResponseAt (data.length + 1) data []

/-! ### Values whose lengths fit -/

mutual

def Value.Exact : Value → Prop
  | .err _ msg => msg.length < 2 ^ 32
  | .str text => text.length < 2 ^ 32
  | .arr elements => elements.length < 2 ^ 32 ∧ Value.ExactAll elements
  | _ => True

def Value.ExactAll : List Value → Prop
  | [] => True
  | value :: rest => Value.Exact value ∧ Value.ExactAll rest

end

mutual

def Value.visits : Value → List Visit
  | .nil => [.nil]
  | .err code msg => [.err code (UInt32.ofNat msg.length) msg]
  | .str text => [.str (UInt32.ofNat text.length) text]
  | .int val => [.int val]
  | .dbl val => [.dbl val]
  | .arr elements =>
      .arr (UInt32.ofNat elements.length) :: (Value.visitsAll elements ++ [.arrEnd])

def Value.visitsAll : List Value → List Visit
  | [] => []
  | value :: rest => Value.visits value ++ Value.visitsAll rest

end

mutual

def Value.depth : Value → Nat
  | .arr elements => 1 + Value.depthAll elements
  | _ => 1

def Value.depthAll : List Value → Nat
  | [] => 0
  | value :: rest => max (Value.depth value) (Value.depthAll rest)

end

private theorem length_encode_pos (value : Value) : 0 < value.encode.length := by
  cases value with
  | arr elements =>
      rw [Value.encode, arrHeader, List.cons_append, List.length_cons]
      exact Nat.zero_lt_succ _
  | _ => simp [Value.encode]

theorem length_le_encodeAll (elements : List Value) :
    elements.length ≤ (Value.encodeAll elements).length := by
  induction elements with
  | nil => exact Nat.le_refl 0
  | cons value rest ih =>
      have positive := length_encode_pos value
      rw [Value.encodeAll, List.length_append, List.length_cons]
      omega

theorem length_arrHeader (n : UInt32) : (arrHeader n).length = 5 := by
  rw [arrHeader, List.length_cons, length_bytesU32]

mutual

private theorem depth_le_encode (value : Value) : value.depth ≤ value.encode.length := by
  match value with
  | .arr elements =>
      have inner := depthAll_le_encodeAll elements
      rw [Value.depth, Value.encode, List.length_append, length_arrHeader]
      omega
  | .nil => exact length_encode_pos .nil
  | .err code msg => exact length_encode_pos (.err code msg)
  | .str text => exact length_encode_pos (.str text)
  | .int val => exact length_encode_pos (.int val)
  | .dbl val => exact length_encode_pos (.dbl val)

theorem depthAll_le_encodeAll (elements : List Value) :
    Value.depthAll elements ≤ (Value.encodeAll elements).length := by
  match elements with
  | [] => exact Nat.le_refl 0
  | value :: rest =>
      have first := depth_le_encode value
      have others := depthAll_le_encodeAll rest
      rw [Value.depthAll, Value.encodeAll, List.length_append]
      omega

end

/-! ### Decoding what was encoded -/

/-- A sum of `uint32_t` that stays small is that of the numbers. -/
private theorem u32_sum (header : UInt32) (size n : Nat) (headerIs : header = UInt32.ofNat size)
    (small : size + n < 2 ^ 31) :
    (header + UInt32.ofNat n).toNat = size + n ∧
      (header + UInt32.ofNat n).toInt32 = Int32.ofNat (size + n) := by
  rw [headerIs, ← UInt32.ofNat_add]
  refine ⟨UInt32.toNat_ofNat_of_lt' (Nat.lt_of_lt_of_le small (by decide)), ?_⟩
  rfl

/-- A length word after `head`, and as many bytes. -/
def sized (head payload rest : Bytes) : Bytes :=
  head ++ (bytesU32 (UInt32.ofNat payload.length) ++ (payload ++ rest))

private theorem loadU32_sized (head payload rest : Bytes) :
    loadU32 (sized head payload rest) head.length = .ok (UInt32.ofNat payload.length) :=
  loadU32_append head _ _

private theorem length_sized (head payload rest : Bytes) :
    (sized head payload rest).length = head.length + 4 + payload.length + rest.length := by
  simp only [sized, List.length_append, length_bytesU32]
  omega

private theorem payload_sized (head payload rest : Bytes) (small : payload.length < 2 ^ 32) :
    ((sized head payload rest).drop (head.length + 4)).take
      (UInt32.ofNat payload.length).toNat = payload := by
  rw [sized, ← List.drop_drop, List.drop_left, drop_bytesU32, UInt32.toNat_ofNat_of_lt' small,
    List.take_left]

theorem onErr_encode (code : Int32) (msg rest : Bytes) (log : List Visit)
    (small : 9 + msg.length < 2 ^ 31) :
    onErr ((Value.err code msg).encode ++ rest) log =
      .ok (Int32.ofNat (9 + msg.length), log ++ (Value.err code msg).visits) := by
  have short : msg.length < 2 ^ 32 := by omega
  rcases u32_sum (1 + 8) 9 msg.length rfl small with ⟨sumIs, rvIs⟩
  have fields : (Value.err code msg).encode ++ rest =
      sized (serErr :: bytesU32 code.toUInt32) msg rest := by
    simp only [Value.encode, sized, List.cons_append, List.append_assoc]
  have five : (serErr :: bytesU32 code.toUInt32).length = 1 + 4 := by
    rw [List.length_cons, length_bytesU32]
  have codeRead : loadU32 (sized (serErr :: bytesU32 code.toUInt32) msg rest) 1 =
      .ok code.toUInt32 := loadU32_append [serErr] _ _
  have lenRead := loadU32_sized (serErr :: bytesU32 code.toUInt32) msg rest
  have payload := payload_sized (serErr :: bytesU32 code.toUInt32) msg rest short
  have size := length_sized (serErr :: bytesU32 code.toUInt32) msg rest
  rw [five] at lenRead payload size
  unfold onErr
  rw [fields, if_neg (by omega), codeRead, ok_bind, lenRead, ok_bind, if_neg (by omega)]
  simp only [payload, rvIs]
  rfl

theorem onStr_encode (text rest : Bytes) (log : List Visit) (small : 5 + text.length < 2 ^ 31) :
    onStr ((Value.str text).encode ++ rest) log =
      .ok (Int32.ofNat (5 + text.length), log ++ (Value.str text).visits) := by
  have short : text.length < 2 ^ 32 := by omega
  rcases u32_sum (1 + 4) 5 text.length rfl small with ⟨sumIs, rvIs⟩
  have fields : (Value.str text).encode ++ rest = sized [serStr] text rest := by
    rw [Value.encode, Nat.mod_eq_of_lt short, List.take_length, sized, List.cons_append,
      List.append_assoc]
    rfl
  have lenRead := loadU32_sized [serStr] text rest
  have payload := payload_sized [serStr] text rest short
  have size := length_sized [serStr] text rest
  rw [List.length_singleton] at lenRead payload size
  unfold onStr
  rw [fields, if_neg (by omega), lenRead, ok_bind, if_neg (by omega)]
  simp only [payload, rvIs]
  rfl

theorem onWord_encode (visit : UInt64 → Visit) (tag : UInt8) (val : UInt64) (rest : Bytes)
    (log : List Visit) :
    onWord visit (tag :: (bytesU64 val ++ rest)) log = .ok (1 + 8, log ++ [visit val]) := by
  have read : loadU64 (tag :: (bytesU64 val ++ rest)) 1 = .ok val := loadU64_append [tag] _ _
  have size : ¬(tag :: (bytesU64 val ++ rest)).length < 1 + 8 := by
    rw [List.length_cons, List.length_append, length_bytesU64]
    omega
  unfold onWord
  rw [if_neg size, read]
  rfl

theorem int32_ofNat_nonneg {n : Nat} (small : n < 2 ^ 31) : ¬Int32.ofNat n < 0 := by
  rw [Int32.lt_iff_toInt_lt, Int32.toInt_ofNat_of_lt small]
  exact Int.not_lt.mpr (Int.natCast_nonneg n)

/-- `n` bytes were decoded, with the visits `visits`. -/
def Decodes (response : Except Fault Response) (n : Nat) (log visits : List Visit) : Prop :=
  response = .ok (Int32.ofNat n, log ++ visits)

private theorem depth_pos (value : Value) : 0 < value.depth := by
  cases value with
  | arr elements =>
      rw [Value.depth]
      omega
  | _ => exact Nat.zero_lt_one

mutual

private theorem onResponseAt_encode (value : Value) (exact : value.Exact)
    (small : value.encode.length < 2 ^ 31) (depth : Nat) (deep : value.depth ≤ depth)
    (rest : Bytes) (log : List Visit) :
    Decodes (onResponseAt depth (value.encode ++ rest) log) value.encode.length log
      value.visits := by
  have positive := depth_pos value
  obtain ⟨depth, rfl⟩ : ∃ less, depth = less + 1 := ⟨depth - 1, by omega⟩
  match value with
  | .nil => rfl
  | .err code msg =>
      have size : (Value.err code msg).encode.length = 9 + msg.length := by
        simp only [Value.encode, List.length_cons, List.length_append, length_bytesU32]
        omega
      rw [size] at small ⊢
      exact onErr_encode code msg rest log small
  | .str text =>
      have size : (Value.str text).encode.length = 5 + text.length := by
        rw [Value.encode, Nat.mod_eq_of_lt exact, List.take_length, List.length_cons,
          List.length_append, length_bytesU32]
        omega
      rw [size] at small ⊢
      exact onStr_encode text rest log small
  | .int val =>
      have size : (Value.int val).encode.length = 9 := by
        rw [Value.encode, List.length_cons, length_bytesU64]
      rw [size]
      exact onWord_encode (fun val => .int val.toInt64) serInt val.toUInt64 rest log
  | .dbl val =>
      have size : (Value.dbl val).encode.length = 9 := by
        rw [Value.encode, List.length_cons, length_bytesU64]
      rw [size]
      exact onWord_encode (fun val => .dbl ⟨val⟩) serDbl val.bits rest log
  | .arr elements =>
      rcases exact with ⟨count, all⟩
      have header := length_arrHeader (UInt32.ofNat elements.length)
      have size : (Value.arr elements).encode.length =
          (arrHeader (UInt32.ofNat elements.length)).length +
            (Value.encodeAll elements).length := by
        rw [Value.encode, List.length_append]
      have read : loadU32 ((Value.arr elements).encode ++ rest) 1 =
          .ok (UInt32.ofNat elements.length) := by
        rw [Value.encode, arrHeader, List.cons_append, List.cons_append, List.append_assoc]
        exact loadU32_append [serArr] _ _
      have long : ¬((Value.arr elements).encode ++ rest).length < 1 + 4 := by
        rw [List.length_append, size, header]
        omega
      rw [Value.depth] at deep
      have walked := arrLoop_encodeAll elements all depth (by omega) 0
        (arrHeader (UInt32.ofNat elements.length)) rest (size ▸ small)
        (log ++ [.arr (UInt32.ofNat elements.length)])
      rw [← size, header, ← List.append_assoc, ← Value.encode, Nat.add_zero] at walked
      change onArr (onResponseAt depth) ((Value.arr elements).encode ++ rest) log = _
      unfold onArr
      rw [if_neg long, read, ok_bind, UInt32.toNat_ofNat_of_lt' count, walked, arrLoop]
      simp only [Value.visits, List.append_assoc, List.cons_append, List.nil_append]

/-- Elements that are there are decoded before the `n` others. -/
theorem arrLoop_encodeAll (elements : List Value) (exact : Value.ExactAll elements)
    (depth : Nat) (deep : Value.depthAll elements ≤ depth) (n : Nat) (before rest : Bytes)
    (small : before.length + (Value.encodeAll elements).length < 2 ^ 31) (log : List Visit) :
    arrLoop (onResponseAt depth) (before ++ (Value.encodeAll elements ++ rest))
        (elements.length + n) before.length log =
      arrLoop (onResponseAt depth) (before ++ (Value.encodeAll elements ++ rest)) n
        (before.length + (Value.encodeAll elements).length)
        (log ++ Value.visitsAll elements) := by
  match elements with
  | [] =>
      rw [List.length_nil, Nat.zero_add, Value.visitsAll, List.append_nil]
      rfl
  | value :: others =>
      rcases exact with ⟨first, later⟩
      rw [Value.depthAll] at deep
      rw [Value.encodeAll, List.length_append] at small ⊢
      have decoded : onResponseAt depth (value.encode ++ (Value.encodeAll others ++ rest)) log =
          .ok (Int32.ofNat value.encode.length, log ++ value.visits) :=
        onResponseAt_encode value first (by omega) depth (by omega)
          (Value.encodeAll others ++ rest) log
      have walked := arrLoop_encodeAll others later depth (by omega) n (before ++ value.encode) rest
        (by rw [List.length_append]; omega) (log ++ value.visits)
      rw [List.length_append, List.append_assoc, List.append_assoc] at walked
      rw [List.length_cons, Nat.succ_add, arrLoop, List.drop_left, List.append_assoc, decoded,
        ok_bind]
      simp only [if_neg (int32_ofNat_nonneg (show value.encode.length < 2 ^ 31 by omega)),
        Int32.toNatClampNeg_ofNat_of_lt (show value.encode.length < 2 ^ 31 by omega)]
      rw [walked, Nat.add_assoc, Value.visitsAll]

end

/-- On data that starts with the encoding of a value the client returns its length and
visits its parts. -/
theorem onResponse_append {value : Value} (exact : value.Exact) (rest : Bytes)
    (small : value.encode.length < 2 ^ 31) :
    onResponse (value.encode ++ rest) =
      .ok (Int32.ofNat value.encode.length, value.visits) := by
  have deep := depth_le_encode value
  unfold onResponse
  rw [List.length_append]
  exact onResponseAt_encode value exact small _ (by omega) rest []

theorem onResponse_encode {value : Value} (exact : value.Exact)
    (small : value.encode.length < 2 ^ 31) :
    onResponse value.encode = .ok (Int32.ofNat value.encode.length, value.visits) := by
  have decoded := onResponse_append exact [] small
  rw [List.append_nil] at decoded
  exact decoded

end RedisC
