/-
The request parser.

A request is a count and as many length-prefixed strings, with nothing after.
`parse_req` reads only inside its buffer and, on data of fewer than `2 ^ 32` bytes,
accepts exactly the encodings of lists of at most `K_MAX_ARGS` strings.  Its caller
hands it at most `K_MAX_MSG` bytes.
-/

import RedisC.Wire

namespace RedisC

open Fallible

/-- The loop `while (n--)` of `parse_req`, with the test after it. -/
def parseReqLoop (data : Bytes) : Nat → Nat → List Bytes → Except Fault (Int × List Bytes)
  | 0, pos, out =>
      if pos ≠ data.length then .ok (-1, out) -- trailing garbage
      else .ok (0, out)
  | n + 1, pos, out =>
      if pos + 4 > data.length then .ok (-1, out)
      else do
        let sz ← loadU32 data pos
        if pos + 4 + sz.toNat > data.length then pure (-1, out)
        else
          let str ← loadBytes data (pos + 4) sz.toNat
          -- `4 + sz` is a sum of two `uint32_t`
          parseReqLoop data n (pos + (4 + sz).toNat) (out ++ [str])

/-- `parse_req` on an empty `out`: the return code and the strings pushed. -/
def parseReq (data : Bytes) : Except Fault (Int × List Bytes) :=
  if data.length < 4 then .ok (-1, [])
  else do
    let n ← loadU32 data 0
    if n.toNat > kMaxArgs then pure (-1, [])
    else parseReqLoop data n.toNat 4 []

/-- The grammar of the strings of a request. -/
def encodeArgs : List Bytes → Bytes
  | [] => []
  | arg :: rest => bytesU32 (UInt32.ofNat arg.length) ++ (arg ++ encodeArgs rest)

def encodeReq (args : List Bytes) : Bytes :=
  bytesU32 (UInt32.ofNat args.length) ++ encodeArgs args

/-- Every length fits the four bytes that hold it. -/
def ArgsFit (args : List Bytes) : Prop := ∀ arg ∈ args, arg.length < 2 ^ 32

/-- The length field that the data starts with is the length of the string. -/
private theorem size_of_encodeArgs_cons {data : Bytes} {pos : Nat} {sz : UInt32}
    (word : (data.drop pos).take 4 = bytesU32 sz) {arg : Bytes} {rest : List Bytes}
    (fits : arg.length < 2 ^ 32) (same : data.drop pos = encodeArgs (arg :: rest)) :
    sz.toNat = arg.length := by
  rw [same, encodeArgs, take_bytesU32] at word
  rw [← bytesU32_inj word, UInt32.toNat_ofNat_of_lt' fits]

/-- One string of the grammar is one round of the loop: its length field, its
bytes, and then the rest of the data. -/
private theorem drop_eq_encodeArgs_cons {data : Bytes} {pos : Nat} {sz : UInt32}
    (word : (data.drop pos).take 4 = bytesU32 sz)
    (inside : pos + 4 + sz.toNat ≤ data.length) (arg : Bytes) (rest : List Bytes) :
    (arg.length < 2 ^ 32 ∧ data.drop pos = encodeArgs (arg :: rest)) ↔
      arg = (data.drop (pos + 4)).take sz.toNat ∧
        data.drop (pos + (4 + sz.toNat)) = encodeArgs rest := by
  have body : data.drop (pos + 4) = (data.drop (pos + 4)).take sz.toNat ++
      data.drop (pos + (4 + sz.toNat)) := by
    rw [← Nat.add_assoc, ← @List.drop_drop _ sz.toNat, List.take_append_drop]
  have split : data.drop pos = bytesU32 sz ++
      ((data.drop (pos + 4)).take sz.toNat ++ data.drop (pos + (4 + sz.toNat))) := by
    rw [← body, ← word, ← List.drop_drop, List.take_append_drop]
  have bodyLength : ((data.drop (pos + 4)).take sz.toNat).length = sz.toNat := by
    rw [List.length_take, List.length_drop]
    omega
  constructor
  · intro decoded
    rcases decoded with ⟨fits, same⟩
    have sameSize := size_of_encodeArgs_cons word fits same
    rw [split, encodeArgs, ← sameSize, UInt32.ofNat_toNat,
      List.append_cancel_left_eq] at same
    obtain ⟨sameArg, sameRest⟩ := List.append_inj same (bodyLength.trans sameSize)
    exact ⟨sameArg.symm, sameRest⟩
  · intro decoded
    rcases decoded with ⟨rfl, same⟩
    rw [split, encodeArgs, bodyLength, UInt32.ofNat_toNat, same]
    exact ⟨sz.toNat_lt, rfl⟩

/-- The loop never faults, and its code is one of the two that callers test. -/
theorem parseReqLoop_returns (data : Bytes) (n pos : Nat) (out : List Bytes) :
    Meets (fun _ => False) (fun result => result.1 = 0 ∨ result.1 = -1)
      (parseReqLoop data n pos out) := by
  induction n generalizing pos out with
  | zero =>
      unfold parseReqLoop
      split
      · exact .inr rfl
      · exact .inl rfl
  | succ n ih =>
      unfold parseReqLoop
      split
      · exact .inr rfl
      · rename_i short
        obtain ⟨sz, szEq, _⟩ := loadU32_ok (Nat.le_of_not_lt short)
        rw [szEq, ok_bind]
        split
        · exact .inr rfl
        · rename_i enough
          rw [loadBytes_ok (Nat.le_of_not_lt enough), ok_bind]
          exact ih _ _

theorem length_encodeArgs_cons (arg : Bytes) (rest : List Bytes) :
    (encodeArgs (arg :: rest)).length = 4 + (arg.length + (encodeArgs rest).length) := by
  rw [encodeArgs, List.length_append, List.length_append, length_bytesU32]

/-- Where a string is encoded, there is room for its length and for the string. -/
private theorem room_of_encodeArgs_cons {data arg : Bytes} {rest : List Bytes} {pos : Nat}
    (same : data.drop pos = encodeArgs (arg :: rest)) : pos + 4 + arg.length ≤ data.length := by
  have left := congrArg List.length same
  rw [List.length_drop, length_encodeArgs_cons] at left
  omega

private theorem toNat_four_add {sz : UInt32} {length : Nat} (inside : 4 + sz.toNat ≤ length)
    (small : length < 2 ^ 32) : (4 + sz).toNat = 4 + sz.toNat := by
  have four : (4 : UInt32).toNat = 4 := rfl
  rw [UInt32.toNat_add, four]
  exact Nat.mod_eq_of_lt (Nat.lt_of_le_of_lt inside small)

/-- The loop accepts from `pos` exactly the encodings of `n` strings. -/
private theorem parseReqLoop_accepts {data : Bytes} (small : data.length < 2 ^ 32) (n pos : Nat)
    (bound : pos ≤ data.length) (out result : List Bytes) :
    parseReqLoop data n pos out = .ok (0, result) ↔
      ∃ args, result = out ++ args ∧ args.length = n ∧ ArgsFit args ∧
        data.drop pos = encodeArgs args := by
  induction n generalizing pos out with
  | zero =>
      unfold parseReqLoop
      by_cases ended : pos = data.length
      · rw [if_neg (fun differs => differs ended)]
        constructor
        · intro same
          cases same
          refine ⟨[], (List.append_nil _).symm, rfl, fun arg member => ?_, ?_⟩
          · cases member
          · rw [ended, List.drop_length]
            rfl
        · intro decoded
          rcases decoded with ⟨args, rfl, none, _, _⟩
          rw [List.eq_nil_of_length_eq_zero none, List.append_nil]
      · rw [if_pos ended]
        constructor
        · intro impossible
          cases impossible
        · intro decoded
          rcases decoded with ⟨args, _, none, _, same⟩
          rw [List.eq_nil_of_length_eq_zero none] at same
          have left := congrArg List.length same
          rw [List.length_drop] at left
          change data.length - pos = 0 at left
          omega
  | succ n ih =>
      unfold parseReqLoop
      by_cases short : pos + 4 > data.length
      · rw [if_pos short]
        constructor
        · intro impossible
          cases impossible
        · intro decoded
          rcases decoded with ⟨args, _, count, _, same⟩
          obtain ⟨arg, rest, rfl⟩ := List.exists_cons_of_length_eq_add_one count
          have room := room_of_encodeArgs_cons same
          omega
      · obtain ⟨sz, szEq, word⟩ := loadU32_ok (Nat.le_of_not_lt short)
        rw [if_neg short, szEq, ok_bind]
        by_cases cut : pos + 4 + sz.toNat > data.length
        · rw [if_pos cut]
          constructor
          · intro impossible
            cases impossible
          · intro decoded
            rcases decoded with ⟨args, _, count, fits, same⟩
            obtain ⟨arg, rest, rfl⟩ := List.exists_cons_of_length_eq_add_one count
            have size := size_of_encodeArgs_cons word (fits arg List.mem_cons_self) same
            have room := room_of_encodeArgs_cons same
            omega
        · have inside := Nat.le_of_not_lt cut
          have advance : (4 + sz).toNat = 4 + sz.toNat := toNat_four_add (by omega) small
          rw [if_neg cut, loadBytes_ok inside, ok_bind, advance,
            ih (pos + (4 + sz.toNat)) (by omega)]
          constructor
          · intro decoded
            rcases decoded with ⟨rest, rfl, count, fits, same⟩
            obtain ⟨fitsHead, sameAll⟩ :=
              (drop_eq_encodeArgs_cons word inside _ rest).mpr ⟨rfl, same⟩
            refine ⟨_ :: rest, by rw [List.append_assoc]; rfl, ?_, ?_, sameAll⟩
            · rw [List.length_cons, count]
            · intro arg member
              rcases List.mem_cons.mp member with rfl | later
              · exact fitsHead
              · exact fits arg later
          · intro decoded
            rcases decoded with ⟨args, rfl, count, fits, same⟩
            obtain ⟨arg, rest, rfl⟩ := List.exists_cons_of_length_eq_add_one count
            obtain ⟨rfl, sameRest⟩ := (drop_eq_encodeArgs_cons word inside arg rest).mp
              ⟨fits arg List.mem_cons_self, same⟩
            refine ⟨rest, by rw [List.append_assoc]; rfl, ?_, ?_, sameRest⟩
            · rw [List.length_cons] at count
              omega
            · exact fun other member => fits other (List.mem_cons_of_mem _ member)

theorem parseReq_returns (data : Bytes) :
    Meets (fun _ => False) (fun result => result.1 = 0 ∨ result.1 = -1) (parseReq data) := by
  unfold parseReq
  split
  · exact .inr rfl
  · rename_i enough
    obtain ⟨n, nEq, _⟩ := loadU32_ok (show 0 + 4 ≤ data.length by omega)
    rw [nEq, ok_bind]
    split
    · exact .inr rfl
    · exact parseReqLoop_returns data n.toNat 4 []

theorem parseReq_eq_ok_iff {data : Bytes} (small : data.length < 2 ^ 32) (args : List Bytes) :
    parseReq data = .ok (0, args) ↔
      args.length ≤ kMaxArgs ∧ ArgsFit args ∧ data = encodeReq args := by
  unfold parseReq
  by_cases short : data.length < 4
  · rw [if_pos short]
    constructor
    · intro impossible
      cases impossible
    · intro decoded
      rcases decoded with ⟨_, _, same⟩
      have left := congrArg List.length same
      rw [encodeReq, List.length_append, length_bytesU32] at left
      omega
  · have inside : 0 + 4 ≤ data.length := by omega
    obtain ⟨n, nEq, word⟩ := loadU32_ok inside
    rw [if_neg short, nEq, ok_bind]
    rw [List.drop_zero] at word
    have split : data = bytesU32 n ++ data.drop 4 := by
      rw [← word, List.take_append_drop]
    have count_of_encodeReq : args.length ≤ kMaxArgs →
        data = encodeReq args → n.toNat = args.length := by
      intro few same
      rw [same, encodeReq, take_bytesU32] at word
      have fits : args.length < 2 ^ 32 := Nat.lt_of_le_of_lt few (by decide)
      rw [← bytesU32_inj word, UInt32.toNat_ofNat_of_lt' fits]
    by_cases many : n.toNat > kMaxArgs
    · rw [if_pos many]
      constructor
      · intro impossible
        cases impossible
      · intro decoded
        rcases decoded with ⟨few, _, same⟩
        have count := count_of_encodeReq few same
        omega
    · rw [if_neg many, parseReqLoop_accepts small n.toNat 4 inside]
      constructor
      · intro decoded
        rcases decoded with ⟨_, rfl, count, fits, same⟩
        refine ⟨Nat.le_of_not_lt (by rwa [← count] at many), fits, ?_⟩
        rw [encodeReq, ← same, count, UInt32.ofNat_toNat]
        exact split
      · intro decoded
        rcases decoded with ⟨few, fits, same⟩
        have count := count_of_encodeReq few same
        refine ⟨args, rfl, count.symm, fits, ?_⟩
        rw [same, encodeReq, drop_bytesU32]

/-- `parse_req` answers 0 or -1 on every byte string and reads no byte past the end of
the data.  On data of fewer than `2 ^ 32` bytes, where the 32-bit sum `4 + sz` does not
wrap, it answers 0 with the list `args` exactly on the encoding of `args`. -/
theorem parseReq_accepts_grammar (data : Bytes) :
    (∃ code out, parseReq data = .ok (code, out) ∧ (code = 0 ∨ code = -1)) ∧
      (data.length < 2 ^ 32 → ∀ args, parseReq data = .ok (0, args) ↔
        args.length ≤ kMaxArgs ∧ ArgsFit args ∧ data = encodeReq args) := by
  refine ⟨?_, parseReq_eq_ok_iff⟩
  rcases (parseReq_returns data).returns with ⟨⟨code, out⟩, returned, codes⟩
  exact ⟨code, out, returned, codes⟩

/-- The command `get k`. -/
def getK : Bytes := [2, 0, 0, 0, 3, 0, 0, 0, 103, 101, 116, 1, 0, 0, 0, 107]

theorem parseReq_accepts_grammar_getK :
    getK.length < 2 ^ 32 ∧ parseReq getK = .ok (0, [[103, 101, 116], [107]]) ∧
      ∀ args, parseReq (getK ++ [0]) ≠ .ok (0, args) := by
  have small : getK.length < 2 ^ 32 := by decide
  have accepts := (parseReq_accepts_grammar getK).2 small [[103, 101, 116], [107]]
  refine ⟨small, accepts.mpr ⟨by decide, ?_, rfl⟩, ?_⟩
  · unfold ArgsFit
    decide
  · intro args accepted
    have refused : parseReq (getK ++ [0]) = .ok (-1, [[103, 101, 116], [107]]) := rfl
    rw [refused] at accepted
    cases accepted

end RedisC
