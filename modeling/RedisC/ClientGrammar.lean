/-
What the response decoder of the client accepts.

A reply is a tree of values, and the decoder should accept exactly the data that
starts with the encoding of one.  It does so unless a length field is so large
that the sum with the size of the header wraps around in 32 bits: the test of
the size then passes, and a payload that is not there is printed.  `Wraps` says
that such a field stands where the decoder looks for a value.
-/

import RedisC.Client

namespace RedisC

open Fallible

def Visit.Inside : Visit → Prop
  | .err _ len msg => msg.length = len.toNat
  | .str len text => text.length = len.toNat
  | _ => True

/-- Where a value should start, after the elements before it, there is a header whose
length wraps around. -/
inductive Wraps : Bytes → Prop
  | err (code len : UInt32) (rest : Bytes) (large : 2 ^ 32 ≤ 9 + len.toNat) :
      Wraps (serErr :: (bytesU32 code ++ (bytesU32 len ++ rest)))
  | str (len : UInt32) (rest : Bytes) (large : 2 ^ 32 ≤ 5 + len.toNat) :
      Wraps (serStr :: (bytesU32 len ++ rest))
  | arr (n : UInt32) (elements : List Value) (exact : Value.ExactAll elements)
      (more : elements.length < n.toNat) (rest : Bytes) (wraps : Wraps rest) :
      Wraps (arrHeader n ++ (Value.encodeAll elements ++ rest))

/-- A result of the decoder on `data`: one value was read, or none. -/
structure Judged (data : Bytes) (log : List Visit) (visits : List Visit)
    (response : Response) : Prop where
  logged : response.2 = log ++ visits
  inside : ∀ visit ∈ visits, visit.Inside
  verdict : response.1 = -1 ∨ ∃ value rest, Value.Exact value ∧ data = value.encode ++ rest ∧
    response.1 = Int32.ofNat value.encode.length

def Judges (data : Bytes) (log : List Visit) (run : Except Fault Response) : Prop :=
  Meets (fun _ => False) (fun response => ∃ visits, Judged data log visits response) run

private theorem judges_bad (data : Bytes) (log : List Visit) :
    Judges data log (badResponse log) := by
  refine ⟨[], (List.append_nil log).symm, ?_, .inl rfl⟩
  intro visit member
  cases member

private theorem judges_one {data : Bytes} {value : Value} {rest : Bytes} (log : List Visit)
    {visit : Visit} (exact : value.Exact) (dataIs : data = value.encode ++ rest)
    (inside : visit.Inside) :
    Judges data log (.ok (Int32.ofNat value.encode.length, log ++ [visit])) := by
  refine ⟨[visit], rfl, ?_, .inr ⟨value, rest, exact, dataIs, rfl⟩⟩
  intro other member
  rw [List.mem_singleton.mp member]
  exact inside

/-! ### Headers -/

private theorem exists_word (data : Bytes) (long : 4 ≤ data.length) :
    ∃ (word : UInt32) (rest : Bytes), data = bytesU32 word ++ rest := by
  obtain ⟨word, _, wordIs⟩ := @loadU32_ok data 0 long
  refine ⟨word, data.drop 4, ?_⟩
  rw [← wordIs, List.drop_zero, List.take_append_drop]

private theorem exists_long (data : Bytes) (long : 8 ≤ data.length) :
    ∃ (word : UInt64) (rest : Bytes), data = bytesU64 word ++ rest := by
  have eight : (data.take 8).length = 8 := by
    rw [List.length_take]
    omega
  have word := bytesU64_ofBytes eight
  exact ⟨_, data.drop 8, by rw [word, List.take_append_drop]⟩

private theorem toNat_header_add {header : UInt32} {len : UInt32}
    (small : header.toNat + len.toNat < 2 ^ 32) :
    (header + len).toNat = header.toNat + len.toNat := by
  rw [UInt32.toNat_add]
  exact Nat.mod_eq_of_lt small

/-- A length and as many bytes at the front of `rest` are a payload. -/
private theorem ofNat_length_take {len : UInt32} {rest : Bytes} (enough : len.toNat ≤ rest.length) :
    (rest.take len.toNat).length = len.toNat ∧
      UInt32.ofNat (rest.take len.toNat).length = len := by
  have length : (rest.take len.toNat).length = len.toNat := by
    rw [List.length_take]
    omega
  rw [length]
  exact ⟨rfl, UInt32.ofNat_toNat⟩

private theorem onErr_header (code len : UInt32) (rest : Bytes) (log : List Visit) :
    onErr (serErr :: (bytesU32 code ++ (bytesU32 len ++ rest))) log =
      if 9 + rest.length < (1 + 8 + len).toNat then badResponse log
      else .ok ((1 + 8 + len).toInt32,
        log ++ [.err code.toInt32 len (rest.take len.toNat)]) := by
  have size : (serErr :: (bytesU32 code ++ (bytesU32 len ++ rest))).length =
      9 + rest.length := by
    simp only [List.length_cons, List.length_append, length_bytesU32]
    omega
  have codeRead : loadU32 (serErr :: (bytesU32 code ++ (bytesU32 len ++ rest))) 1 = .ok code :=
    loadU32_append [serErr] code _
  have five : (serErr :: bytesU32 code).length = 1 + 4 := by
    rw [List.length_cons, length_bytesU32]
  have lenRead := loadU32_append (serErr :: bytesU32 code) len rest
  rw [five, List.cons_append] at lenRead
  have payload : (serErr :: (bytesU32 code ++ (bytesU32 len ++ rest))).drop (1 + 8) = rest := by
    rw [Nat.add_comm, List.drop_succ_cons, ← List.append_assoc]
    apply List.drop_left'
    rw [List.length_append, length_bytesU32, length_bytesU32]
  unfold onErr
  rw [size, if_neg (by omega), codeRead, ok_bind, lenRead, ok_bind, payload]
  rfl

private theorem onStr_header (len : UInt32) (rest : Bytes) (log : List Visit) :
    onStr (serStr :: (bytesU32 len ++ rest)) log =
      if 5 + rest.length < (1 + 4 + len).toNat then badResponse log
      else .ok ((1 + 4 + len).toInt32, log ++ [.str len (rest.take len.toNat)]) := by
  have size : (serStr :: (bytesU32 len ++ rest)).length = 5 + rest.length := by
    simp only [List.length_cons, List.length_append, length_bytesU32]
    omega
  have lenRead : loadU32 (serStr :: (bytesU32 len ++ rest)) 1 = .ok len :=
    loadU32_append [serStr] len _
  have payload : (serStr :: (bytesU32 len ++ rest)).drop (1 + 4) = rest := by
    rw [Nat.add_comm, List.drop_succ_cons, drop_bytesU32]
  unfold onStr
  rw [size, if_neg (by omega), lenRead, ok_bind, payload]
  rfl

private theorem onErr_judges {tail : Bytes} (small : (serErr :: tail).length < 2 ^ 31)
    (fits : ¬Wraps (serErr :: tail)) (log : List Visit) :
    Judges (serErr :: tail) log (onErr (serErr :: tail) log) := by
  by_cases short : (serErr :: tail).length < 1 + 8
  · unfold onErr
    rw [if_pos short]
    exact judges_bad _ log
  · have long := short
    rw [List.length_cons] at long
    obtain ⟨code, tail, rfl⟩ := exists_word tail (by omega)
    rw [List.length_append, length_bytesU32] at long
    obtain ⟨len, rest, rfl⟩ := exists_word tail (by omega)
    have size : (serErr :: (bytesU32 code ++ (bytesU32 len ++ rest))).length =
        9 + rest.length := by
      simp only [List.length_cons, List.length_append, length_bytesU32]
      omega
    have noWrap : 9 + len.toNat < 2 ^ 32 :=
      Nat.lt_of_not_le fun large => fits (.err code len rest large)
    by_cases enough : len.toNat ≤ rest.length
    · obtain ⟨length, lenIs⟩ := ofNat_length_take enough
      have dataIs : serErr :: (bytesU32 code ++ (bytesU32 len ++ rest)) =
          (Value.err code.toInt32 (rest.take len.toNat)).encode ++ rest.drop len.toNat := by
        rw [Value.encode, lenIs, UInt32.toUInt32_toInt32]
        simp only [List.cons_append, List.append_assoc, List.take_append_drop]
      have returned := onErr_encode code.toInt32 (rest.take len.toNat) (rest.drop len.toNat) log
        (by omega)
      have encoded : (Value.err code.toInt32 (rest.take len.toNat)).encode.length =
          9 + (rest.take len.toNat).length := by
        simp only [Value.encode, List.length_cons, List.length_append, length_bytesU32]
        omega
      rw [← dataIs, ← encoded] at returned
      rw [returned]
      apply judges_one log _ dataIs
      · rw [Visit.Inside, lenIs]
        exact length
      · change (rest.take len.toNat).length < 2 ^ 32
        omega
    · have sum : (1 + 8 + len).toNat = 9 + len.toNat := toNat_header_add noWrap
      rw [onErr_header, if_pos (by omega)]
      exact judges_bad _ log

private theorem onStr_judges {tail : Bytes} (small : (serStr :: tail).length < 2 ^ 31)
    (fits : ¬Wraps (serStr :: tail)) (log : List Visit) :
    Judges (serStr :: tail) log (onStr (serStr :: tail) log) := by
  by_cases short : (serStr :: tail).length < 1 + 4
  · unfold onStr
    rw [if_pos short]
    exact judges_bad _ log
  · have long := short
    rw [List.length_cons] at long
    obtain ⟨len, rest, rfl⟩ := exists_word tail (by omega)
    have size : (serStr :: (bytesU32 len ++ rest)).length = 5 + rest.length := by
      simp only [List.length_cons, List.length_append, length_bytesU32]
      omega
    have noWrap : 5 + len.toNat < 2 ^ 32 :=
      Nat.lt_of_not_le fun large => fits (.str len rest large)
    by_cases enough : len.toNat ≤ rest.length
    · obtain ⟨length, lenIs⟩ := ofNat_length_take enough
      have exact : (Value.str (rest.take len.toNat)).Exact := by
        change (rest.take len.toNat).length < 2 ^ 32
        omega
      have whole : (Value.str (rest.take len.toNat)).encode =
          serStr :: (bytesU32 len ++ rest.take len.toNat) := by
        rw [Value.encode, lenIs, Nat.mod_eq_of_lt exact, List.take_length]
      have dataIs : serStr :: (bytesU32 len ++ rest) =
          (Value.str (rest.take len.toNat)).encode ++ rest.drop len.toNat := by
        rw [whole]
        simp only [List.cons_append, List.append_assoc, List.take_append_drop]
      have returned := onStr_encode (rest.take len.toNat) (rest.drop len.toNat) log (by omega)
      have encoded : (Value.str (rest.take len.toNat)).encode.length =
          5 + (rest.take len.toNat).length := by
        rw [whole, List.length_cons, List.length_append, length_bytesU32]
        omega
      rw [← dataIs, ← encoded] at returned
      rw [returned]
      apply judges_one log exact dataIs
      rw [Visit.Inside, lenIs]
      exact length
    · have sum : (1 + 4 + len).toNat = 5 + len.toNat := toNat_header_add noWrap
      rw [onStr_header, if_pos (by omega)]
      exact judges_bad _ log

/-- The two cases of eight bytes, for the value that the bytes stand for. -/
private theorem onWord_judges {tag : UInt8} {tail : Bytes} (visit : UInt64 → Visit)
    (inside : ∀ word, (visit word).Inside) (value : UInt64 → Value)
    (exact : ∀ word, (value word).Exact)
    (encoded : ∀ word, (value word).encode = tag :: bytesU64 word) (log : List Visit) :
    Judges (tag :: tail) log (onWord visit (tag :: tail) log) := by
  by_cases short : (tag :: tail).length < 1 + 8
  · unfold onWord
    rw [if_pos short]
    exact judges_bad _ log
  · have long := short
    rw [List.length_cons] at long
    obtain ⟨word, rest, rfl⟩ := exists_long tail (by omega)
    have nine : (value word).encode.length = 9 := by
      rw [encoded, List.length_cons, length_bytesU64]
    have dataIs : tag :: (bytesU64 word ++ rest) = (value word).encode ++ rest := by
      rw [encoded, List.cons_append]
    have judged := judges_one log (exact word) dataIs (inside word)
    rw [nine] at judged
    rw [onWord_encode]
    exact judged

/-! ### Arrays -/

theorem Judges.extend {data : Bytes} {log more : List Visit} {run : Except Fault Response}
    (judges : Judges data (log ++ more) run) (inside : ∀ visit ∈ more, visit.Inside) :
    Judges data log run := by
  apply Meets.mono judges
  intro response judged
  obtain ⟨visits, logged, visitsInside, verdict⟩ := judged
  refine ⟨more ++ visits, ?_, ?_, verdict⟩
  · rw [logged, List.append_assoc]
  · intro visit member
    rcases List.mem_append.mp member with early | late
    · exact inside visit early
    · exact visitsInside visit late

private theorem exactAll_concat {elements : List Value} {value : Value}
    (all : Value.ExactAll elements) (exact : value.Exact) :
    Value.ExactAll (elements ++ [value]) := by
  induction elements with
  | nil => exact ⟨exact, trivial⟩
  | cons first others ih => exact ⟨all.1, ih all.2⟩

/-- The elements `done` have been read, and `k` more are to come. -/
private theorem arrLoop_judges {depth : Nat}
    (element : ∀ (data : Bytes) (log : List Visit), data.length < depth → data.length < 2 ^ 31 →
      ¬Wraps data → Judges data log (onResponseAt depth data log))
    (n : UInt32) (k : Nat) (done : List Value) (exact : Value.ExactAll done)
    (count : done.length + k = n.toNat) (rest : Bytes)
    (small : (arrHeader n ++ (Value.encodeAll done ++ rest)).length < 2 ^ 31)
    (deep : (arrHeader n ++ (Value.encodeAll done ++ rest)).length ≤ depth)
    (fits : ¬Wraps (arrHeader n ++ (Value.encodeAll done ++ rest))) (log : List Visit) :
    Judges (arrHeader n ++ (Value.encodeAll done ++ rest)) log
      (arrLoop (onResponseAt depth) (arrHeader n ++ (Value.encodeAll done ++ rest)) k
        (arrHeader n ++ Value.encodeAll done).length log) := by
  induction k generalizing done rest log with
  | zero =>
      have countIs : UInt32.ofNat done.length = n := by
        rw [← Nat.add_zero done.length, count, UInt32.ofNat_toNat]
      have encoded : (Value.arr done).encode = arrHeader n ++ Value.encodeAll done := by
        rw [Value.encode, countIs]
      have lessThan := n.toNat_lt
      rw [arrLoop, ← encoded]
      have valueExact : (Value.arr done).Exact := ⟨by omega, exact⟩
      have dataIs : arrHeader n ++ (Value.encodeAll done ++ rest) =
          (Value.arr done).encode ++ rest := by
        rw [encoded, List.append_assoc]
      exact judges_one log valueExact dataIs trivial
  | succ k ih =>
      have header := length_arrHeader n
      have sizes : (arrHeader n ++ (Value.encodeAll done ++ rest)).length =
          5 + (Value.encodeAll done).length + rest.length := by
        rw [List.length_append, List.length_append, header]
        omega
      have restFits : ¬Wraps rest := fun wraps =>
        fits (.arr n done exact (by omega) rest wraps)
      rw [arrLoop, ← List.append_assoc, List.drop_left, List.append_assoc]
      apply (element rest log (by omega) (by omega) restFits).bind
      intro response judged
      obtain ⟨visits, logged, inside, verdict⟩ := judged
      rcases response with ⟨rv, logNew⟩
      simp only at logged verdict ⊢
      rcases verdict with rejected | ⟨value, after, valueExact, restIs, rvIs⟩
      · rw [rejected, if_pos (by decide)]
        exact ⟨visits, logged, inside, .inl rfl⟩
      · have length : value.encode.length ≤ rest.length := by
          rw [restIs, List.length_append]
          omega
        have below : value.encode.length < 2 ^ 31 := by omega
        have dataIs : arrHeader n ++ (Value.encodeAll done ++ rest) =
            arrHeader n ++ (Value.encodeAll (done ++ [value]) ++ after) := by
          rw [restIs, encodeAll_append, Value.encodeAll, Value.encodeAll, List.append_nil,
            List.append_assoc]
        have place : (arrHeader n ++ Value.encodeAll done).length + value.encode.length =
            (arrHeader n ++ Value.encodeAll (done ++ [value])).length := by
          simp only [encodeAll_append, Value.encodeAll, List.append_nil, List.length_append]
          omega
        rw [rvIs, if_neg (int32_ofNat_nonneg below), Int32.toNatClampNeg_ofNat_of_lt below, place]
        rw [dataIs] at small deep fits ⊢
        have later := ih _ (exactAll_concat exact valueExact)
          (by rw [List.length_append, List.length_singleton]; omega) after small deep fits logNew
        rw [logged] at later
        rw [logged]
        exact later.extend inside

private theorem onArr_judges {depth : Nat}
    (element : ∀ (data : Bytes) (log : List Visit), data.length < depth → data.length < 2 ^ 31 →
      ¬Wraps data → Judges data log (onResponseAt depth data log))
    {tail : Bytes} (small : (serArr :: tail).length < 2 ^ 31)
    (deep : (serArr :: tail).length ≤ depth) (fits : ¬Wraps (serArr :: tail))
    (log : List Visit) :
    Judges (serArr :: tail) log (onArr (onResponseAt depth) (serArr :: tail) log) := by
  by_cases short : (serArr :: tail).length < 1 + 4
  · unfold onArr
    rw [if_pos short]
    exact judges_bad _ log
  · have long := short
    rw [List.length_cons] at long
    obtain ⟨n, rest, rfl⟩ := exists_word tail (by omega)
    have countRead : loadU32 (serArr :: (bytesU32 n ++ rest)) 1 = .ok n :=
      loadU32_append [serArr] n _
    have header : (arrHeader n ++ Value.encodeAll []).length = 1 + 4 := by
      rw [Value.encodeAll, List.append_nil, length_arrHeader]
    have walked := arrLoop_judges element n n.toNat [] trivial (Nat.zero_add _) rest
      small deep fits (log ++ [.arr n])
    rw [header] at walked
    unfold onArr
    rw [if_neg short, countRead, ok_bind]
    apply walked.extend
    intro visit member
    rw [List.mem_singleton.mp member]
    trivial

private theorem onResponseAt_judges (depth : Nat) (data : Bytes) (log : List Visit)
    (deep : data.length < depth) (small : data.length < 2 ^ 31) (fits : ¬Wraps data) :
    Judges data log (onResponseAt depth data log) := by
  induction depth generalizing data log with
  | zero => omega
  | succ depth ih =>
      cases data with
      | nil => exact judges_bad [] log
      | cons tag tail =>
          rw [onResponseAt]
          split
          · rename_i isNil
            subst isNil
            have dataIs : serNil :: tail = Value.nil.encode ++ tail := rfl
            have exact : Value.nil.Exact := trivial
            exact judges_one log exact dataIs trivial
          split
          · rename_i isErr
            subst isErr
            exact onErr_judges small fits log
          split
          · rename_i isStr
            subst isStr
            exact onStr_judges small fits log
          split
          · rename_i isInt
            subst isInt
            exact onWord_judges (fun word => .int word.toInt64) (fun _ => trivial)
              (fun word => .int word.toInt64) (fun _ => trivial) (fun _ => rfl) log
          split
          · rename_i isDbl
            subst isDbl
            exact onWord_judges (fun word => .dbl ⟨word⟩) (fun _ => trivial)
              (fun word => .dbl ⟨word⟩) (fun _ => trivial) (fun _ => rfl) log
          split
          · rename_i isArr
            subst isArr
            exact onArr_judges ih small (Nat.le_of_lt_succ deep) fits log
          · exact judges_bad _ log

/-! ### A length that wraps around -/

private theorem meets_anything {α : Type} (run : Except Fault α) :
    Meets (fun _ => True) (fun _ => True) run := by
  cases run with
  | error fault => trivial
  | ok value => trivial

def Extends (log : List Visit) (run : Except Fault Response) : Prop :=
  Meets (fun _ => True) (fun response => log <+: response.2) run

private theorem onErr_extends (data : Bytes) (log : List Visit) : Extends log (onErr data log) := by
  unfold onErr
  split
  · exact List.prefix_rfl
  · apply (meets_anything _).bind
    intro code _
    apply (meets_anything _).bind
    intro len _
    split
    · exact List.prefix_rfl
    · exact List.prefix_append _ _

private theorem onStr_extends (data : Bytes) (log : List Visit) : Extends log (onStr data log) := by
  unfold onStr
  split
  · exact List.prefix_rfl
  · apply (meets_anything _).bind
    intro len _
    split
    · exact List.prefix_rfl
    · exact List.prefix_append _ _

private theorem onWord_extends (visit : UInt64 → Visit) (data : Bytes) (log : List Visit) :
    Extends log (onWord visit data log) := by
  unfold onWord
  split
  · exact List.prefix_rfl
  · apply (meets_anything _).bind
    intro word _
    exact List.prefix_append _ _

private theorem arrLoop_extends {element : Bytes → List Visit → Except Fault Response}
    (extend : ∀ data log, Extends log (element data log)) (data : Bytes) (k pos : Nat)
    (log : List Visit) : Extends log (arrLoop element data k pos log) := by
  induction k generalizing pos log with
  | zero => exact List.prefix_append _ _
  | succ k ih =>
      rw [arrLoop]
      apply (extend (data.drop pos) log).bind
      intro response grown
      rcases response with ⟨rv, logNew⟩
      simp only
      split
      · exact grown
      · apply (ih _ logNew).mono
        intro later grownLater
        exact grown.trans grownLater

private theorem onResponseAt_extends (depth : Nat) (data : Bytes) (log : List Visit) :
    Extends log (onResponseAt depth data log) := by
  induction depth generalizing data log with
  | zero => trivial
  | succ depth ih =>
      cases data with
      | nil => exact List.prefix_rfl
      | cons tag tail =>
          rw [onResponseAt]
          split
          · exact List.prefix_append _ _
          split
          · exact onErr_extends _ log
          split
          · exact onStr_extends _ log
          split
          · exact onWord_extends _ _ log
          split
          · exact onWord_extends _ _ log
          split
          · unfold onArr
            split
            · exact List.prefix_rfl
            · apply (meets_anything _).bind
              intro n _
              apply (arrLoop_extends ih (tag :: tail) n.toNat _ _).mono
              intro response grown
              exact (List.prefix_append _ _).trans grown
          · exact List.prefix_rfl

private theorem not_inside_of_wraps {header len : UInt32} {rest : Bytes} (few : header.toNat ≤ 9)
    (large : 2 ^ 32 ≤ header.toNat + len.toNat) (small : rest.length < 2 ^ 31) :
    (header + len).toNat < header.toNat ∧ (rest.take len.toNat).length ≠ len.toNat := by
  have bound := len.toNat_lt
  have length : (rest.take len.toNat).length ≤ rest.length := List.length_take_le' _ _
  rw [UInt32.toNat_add]
  omega

theorem Wraps.printed {data : Bytes} (wraps : Wraps data) (small : data.length < 2 ^ 31)
    {depth : Nat} (deep : data.length < depth) {log : List Visit} {response : Response}
    (returned : onResponseAt depth data log = .ok response) :
    ∃ visit ∈ response.2, ¬visit.Inside := by
  induction wraps generalizing depth log response with
  | err code len rest large =>
      obtain ⟨depth, rfl⟩ : ∃ less, depth = less + 1 := ⟨depth - 1, by omega⟩
      simp only [List.length_cons, List.length_append, length_bytesU32] at small
      obtain ⟨passes, absent⟩ := @not_inside_of_wraps (1 + 8) len rest (by decide) large (by omega)
      have nine : (1 + 8 : UInt32).toNat = 9 := rfl
      change onErr (serErr :: (bytesU32 code ++ (bytesU32 len ++ rest))) log = _ at returned
      rw [onErr_header, if_neg (by omega)] at returned
      cases returned
      exact ⟨_, List.mem_append_right _ List.mem_cons_self, absent⟩
  | str len rest large =>
      obtain ⟨depth, rfl⟩ : ∃ less, depth = less + 1 := ⟨depth - 1, by omega⟩
      simp only [List.length_cons, List.length_append, length_bytesU32] at small
      obtain ⟨passes, absent⟩ := @not_inside_of_wraps (1 + 4) len rest (by decide) large (by omega)
      have five : (1 + 4 : UInt32).toNat = 5 := rfl
      change onStr (serStr :: (bytesU32 len ++ rest)) log = _ at returned
      rw [onStr_header, if_neg (by omega)] at returned
      cases returned
      exact ⟨_, List.mem_append_right _ List.mem_cons_self, absent⟩
  | arr n elements exact more rest wraps ih =>
      obtain ⟨depth, rfl⟩ : ∃ less, depth = less + 1 := ⟨depth - 1, by omega⟩
      obtain ⟨k, countIs⟩ : ∃ k, n.toNat = elements.length + (k + 1) :=
        ⟨n.toNat - elements.length - 1, by omega⟩
      have header := length_arrHeader n
      have shallow := depthAll_le_encodeAll elements
      have long : ¬(arrHeader n ++ (Value.encodeAll elements ++ rest)).length < 1 + 4 := by
        rw [List.length_append, header]
        omega
      have countRead : loadU32 (arrHeader n ++ (Value.encodeAll elements ++ rest)) 1 = .ok n := by
        rw [arrHeader, List.cons_append]
        exact loadU32_append [serArr] n _
      rw [List.length_append, List.length_append, header] at small deep
      change onArr (onResponseAt depth) (arrHeader n ++ (Value.encodeAll elements ++ rest)) log =
        _ at returned
      have walked := arrLoop_encodeAll elements exact depth (by omega) (k + 1) (arrHeader n) rest
        (by omega) (log ++ [.arr n])
      unfold onArr at returned
      rw [header] at walked
      rw [if_neg long, countRead, ok_bind, countIs, walked, ← header, ← List.length_append,
        arrLoop, ← List.append_assoc, List.drop_left] at returned
      obtain ⟨⟨rv, logNew⟩, first, others⟩ := bind_eq_ok returned
      obtain ⟨visit, member, outside⟩ := ih (by omega) (by omega) first
      refine ⟨visit, ?_, outside⟩
      simp only at others
      split at others
      · cases others
        exact member
      · have grown : Extends logNew (.ok response) :=
          others ▸ arrLoop_extends (onResponseAt_extends depth) _ _ _ logNew
        exact List.IsPrefix.subset grown member

/-! ### All data that `read_res` can hand over -/

/-- `on_response` accepts exactly the data that starts with the encoding of a value, and
prints nothing that is not in the data. -/
structure FollowsGrammar (data : Bytes) (response : Response) : Prop where
  accepts : ∀ n : Nat, 0 < n → (response.1.toInt = n ↔
    n ≤ data.length ∧ ∃ value : Value, value.Exact ∧ data.take n = value.encode)
  rejects : (¬∃ (n : Nat) (value : Value), value.Exact ∧ data.take n = value.encode) →
    response.1 = -1
  inside : ∀ visit ∈ response.2, visit.Inside

private theorem take_eq_encode {data : Bytes} {n : Nat} {value : Value}
    (front : data.take n = value.encode) :
    data = value.encode ++ data.drop n ∧ (n ≤ data.length → n = value.encode.length) := by
  constructor
  · rw [← front, List.take_append_drop]
  · intro within
    rw [← front, List.length_take]
    omega

private theorem onResponse_of_front {data : Bytes} (small : data.length < 2 ^ 31) {n : Nat}
    {value : Value} (exact : value.Exact) (front : data.take n = value.encode) :
    onResponse data = .ok (Int32.ofNat value.encode.length, value.visits) := by
  have dataIs := (take_eq_encode front).1
  have short : value.encode.length ≤ data.length := by
    rw [← front]
    exact List.length_take_le' _ _
  rw [dataIs]
  exact onResponse_append exact _ (by omega)

theorem Judged.follows {data : Bytes} {visits : List Visit} {response : Response}
    (judged : Judged data [] visits response) (small : data.length < 2 ^ 31)
    (returned : onResponse data = .ok response) : FollowsGrammar data response := by
  obtain ⟨logged, inside, verdict⟩ := judged
  constructor
  · intro n positive
    constructor
    · intro isN
      rcases verdict with rejected | ⟨value, rest, exact, dataIs, rvIs⟩
      · rw [rejected] at isN
        change (-1 : Int) = n at isN
        omega
      · have size := congrArg List.length dataIs
        rw [List.length_append] at size
        rw [rvIs, Int32.toInt_ofNat_of_lt (by omega)] at isN
        have same : value.encode.length = n := Int.ofNat.inj isN
        refine ⟨by omega, value, exact, ?_⟩
        rw [dataIs]
        exact List.take_left' same
    · intro both
      obtain ⟨within, value, exact, front⟩ := both
      have length := (take_eq_encode front).2 within
      have decoded := onResponse_of_front small exact front
      rw [returned] at decoded
      rw [Except.ok.inj decoded, ← length, Int32.toInt_ofNat_of_lt (by omega)]
  · intro none
    rcases verdict with rejected | ⟨value, rest, exact, dataIs, _⟩
    · exact rejected
    · refine absurd ⟨value.encode.length, value, exact, ?_⟩ none
      rw [dataIs]
      exact List.take_left' rfl
  · rw [logged]
    exact inside

theorem onResponse_follows_grammar_iff (data : Bytes) (fits : data.length ≤ kMaxMsg) :
    (∃ response, onResponse data = .ok response ∧ FollowsGrammar data response) ↔
      ¬Wraps data := by
  have small : data.length < 2 ^ 31 := Nat.lt_of_le_of_lt fits (by decide)
  constructor
  · intro result wraps
    rcases result with ⟨response, returned, follows⟩
    obtain ⟨visit, member, outside⟩ := wraps.printed small (Nat.lt_succ_self _) returned
    exact outside (follows.inside visit member)
  · intro sound
    obtain ⟨response, returned, visits, judged⟩ :=
      Meets.returns (onResponseAt_judges (data.length + 1) data [] (Nat.lt_succ_self _) small sound)
    exact ⟨response, returned, judged.follows small returned⟩

/-- A string whose length is `2 ^ 32 - 1`: the client returns 4. -/
def wrappedStr : Bytes := [serStr, 255, 255, 255, 255]

theorem onResponse_accepts_wrappedStr :
    onResponse wrappedStr = .ok (4, [.str 4294967295 []]) ∧
      (∀ value : Value, wrappedStr.take 4 ≠ value.encode) ∧
      ¬∃ response, onResponse wrappedStr = .ok response ∧ FollowsGrammar wrappedStr response := by
  have returned : onResponse wrappedStr = .ok (4, [.str 4294967295 []]) := rfl
  refine ⟨returned, ?_, ?_⟩
  · intro value same
    have heads := congrArg List.head? same
    cases value with
    | str text =>
        have sizes := congrArg List.length same
        rw [Value.encode, List.length_cons, List.length_append, length_bytesU32] at sizes
        change 4 = _ at sizes
        omega
    | nil => exact absurd heads (by decide)
    | err code msg => exact absurd (Option.some.inj heads) (by decide)
    | int val => exact absurd (Option.some.inj heads) (by decide)
    | dbl val => exact absurd (Option.some.inj heads) (by decide)
    | arr elements =>
        rw [Value.encode, arrHeader] at heads
        exact absurd (Option.some.inj heads) (by decide)
  · intro ensured
    rcases ensured with ⟨response, same, follows⟩
    rw [returned] at same
    cases same
    have inside := follows.inside _ List.mem_cons_self
    change 0 = 4294967295 at inside
    omega

theorem onResponse_follows_grammar_nested :
    (∃ response, onResponse [serArr, 1, 0, 0, 0, serStr, 1, 0, 0, 0, 97] = .ok response ∧
      FollowsGrammar [serArr, 1, 0, 0, 0, serStr, 1, 0, 0, 0, 97] response) ↔
      ¬Wraps [serArr, 1, 0, 0, 0, serStr, 1, 0, 0, 0, 97] :=
  onResponse_follows_grammar_iff _ (by decide)

end RedisC
