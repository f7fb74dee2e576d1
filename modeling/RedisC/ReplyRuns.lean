/-
Every reply is one value that the client decodes in full.

The database is one that requests from the wire have led to, so no stored value is
longer than a request.  What a handler writes is the encoding of a value; a string
of `2 ^ 32` bytes or more would be cut, and the value that is on the wire is the
one with the cut strings.  What does not fit in the buffer is replaced as a whole.
-/

import RedisC.Client
import RedisC.Connection
import RedisC.KeyspaceOrigin

namespace RedisC

open Fallible LabelledRun

/-! ### The value on the wire -/

mutual

def Value.cut : Value → Value
  | .str text => .str (text.take (text.length % 2 ^ 32))
  | .arr elements => .arr (Value.cutAll elements)
  | value => value

def Value.cutAll : List Value → List Value
  | [] => []
  | value :: rest => Value.cut value :: Value.cutAll rest

end

private theorem length_cutAll (elements : List Value) :
    (Value.cutAll elements).length = elements.length := by
  induction elements with
  | nil => rfl
  | cons value rest ih => rw [Value.cutAll, List.length_cons, List.length_cons, ih]

theorem length_take_mod (text : Bytes) :
    (text.take (text.length % 2 ^ 32)).length = text.length % 2 ^ 32 := by
  rw [List.length_take]
  exact Nat.min_eq_left (Nat.mod_le _ _)

private theorem encode_cut_str (text : Bytes) :
    (Value.str (text.take (text.length % 2 ^ 32))).encode = (Value.str text).encode := by
  have sameLen : UInt32.ofNat (text.length % 2 ^ 32) = UInt32.ofNat text.length :=
    UInt32.ofNat_mod_size
  rw [Value.encode, length_take_mod, sameLen, Nat.mod_mod, List.take_take, Nat.min_self,
    ← Value.encode]

mutual

private theorem encode_cut (value : Value) : value.cut.encode = value.encode := by
  match value with
  | .str text => exact encode_cut_str text
  | .arr elements =>
      rw [Value.cut, Value.encode, encodeAll_cutAll elements, length_cutAll, ← Value.encode]
  | .nil => rfl
  | .err _ _ => rfl
  | .int _ => rfl
  | .dbl _ => rfl

private theorem encodeAll_cutAll (elements : List Value) :
    Value.encodeAll (Value.cutAll elements) = Value.encodeAll elements := by
  match elements with
  | [] => rfl
  | value :: rest =>
      rw [Value.cutAll, Value.encodeAll, encode_cut value, encodeAll_cutAll rest, Value.encodeAll]

end

mutual

private theorem exact_cut (value : Value) (small : value.encode.length < 2 ^ 32) :
    value.cut.Exact := by
  match value with
  | .str text =>
      change (text.take (text.length % 2 ^ 32)).length < 2 ^ 32
      rw [length_take_mod]
      exact Nat.mod_lt _ (by decide)
  | .err code msg =>
      change msg.length < 2 ^ 32
      simp only [Value.encode, List.length_cons, List.length_append, length_bytesU32] at small
      omega
  | .arr elements =>
      have count := length_le_encodeAll elements
      rw [Value.encode, List.length_append] at small
      constructor
      · rw [length_cutAll]
        omega
      · exact exactAll_cutAll elements (by omega)
  | .nil => trivial
  | .int _ => trivial
  | .dbl _ => trivial

private theorem exactAll_cutAll (elements : List Value)
    (small : (Value.encodeAll elements).length < 2 ^ 32) :
    Value.ExactAll (Value.cutAll elements) := by
  match elements with
  | [] => trivial
  | value :: rest =>
      rw [Value.encodeAll, List.length_append] at small
      exact ⟨exact_cut value (by omega), exactAll_cutAll rest (by omega)⟩

end

/-- The value in the frame of a reply. -/
def Value.packed (value : Value) : Value :=
  if 4 + value.encode.length > kMaxMsg then .err err2Big (ascii "response is too big")
  else value.cut

theorem packReply_encode (value : Value) : packReply value.encode = value.packed.encode := by
  unfold packReply Value.packed
  split
  · exact outErr_eq [] err2Big "response is too big"
  · exact (encode_cut value).symm

theorem exact_packed (value : Value) : value.packed.Exact := by
  unfold Value.packed
  split
  · change (ascii "response is too big").length < 2 ^ 32
    decide
  · apply exact_cut
    unfold kMaxMsg at *
    omega

theorem length_packed (value : Value) : value.packed.encode.length ≤ kMaxMsg - 4 := by
  rw [← packReply_encode]
  unfold packReply
  split
  · decide
  · omega

/-! ### Values that are stored -/

def ShortValues (dict : Dict) : Prop :=
  ∀ key record, dict key = some record → record.val.length ≤ kMaxMsg

/-! ### Runs -/

private theorem length_arg_le {args : List Bytes} {arg : Bytes} (member : arg ∈ args) :
    arg.length ≤ (encodeArgs args).length := by
  induction args with
  | nil => cases member
  | cons first rest ih =>
      rw [length_encodeArgs_cons]
      rcases List.mem_cons.mp member with here | later
      · rw [here]
        omega
      · have below := ih later
        omega

theorem args_short {body : Bytes} {cmd : List Bytes} (short : body.length ≤ kMaxMsg)
    (parsed : parseReq body = .ok (0, cmd)) : ∀ arg ∈ cmd, arg.length ≤ kMaxMsg := by
  intro arg member
  have small : body.length < 2 ^ 32 := Nat.lt_of_le_of_lt short (by decide)
  rcases (parseReq_eq_ok_iff small cmd).mp parsed with ⟨_, _, same⟩
  have below := length_arg_le member
  rw [same, encodeReq, List.length_append] at short
  omega

/-- What may happen to the database: the body of a request frame, `do_expire`, or the
timers. -/
inductive DbCall
  | request (alloc : Alloc) (body : Bytes)
  | expire (now : UInt64) (key ttlMs : Bytes)
  | timers (now : UInt64)

def DbCall.exec (strtod : Strtod) (g : GData) : DbCall → Except Fault GData
  | .request alloc body => do
      let (code, cmd) ← parseReq body
      if code ≠ 0 then pure g
      else do
        let (g, _) ← doRequest strtod g alloc cmd []
        pure g
  | .expire now key ttlMs => do
      let (g, _) ← doExpire g now key ttlMs []
      pure g
  | .timers now => processTtlTimers g now

def DbCall.Allowed (g : GData) : DbCall → Prop
  | .request alloc body => alloc.Unused g ∧ body.length ≤ kMaxMsg
  | _ => True

def DbStep (strtod : Strtod) (g : GData) (call : DbCall) (after : GData) : Prop :=
  call.Allowed g ∧ call.exec strtod g = .ok after

def GData.Short (g : GData) : Prop :=
  ∃ ents dict due, g.Represents ents dict due ∧ ShortValues dict

def GData.Each (holds : Record → Prop) (g : GData) : Prop :=
  ∃ ents dict due, g.Represents ents dict due ∧ EachRecord holds dict

/-- What a request of at most `K_MAX_MSG` bytes can do to a record keeps the property. -/
def KeptByRequests (strtod : Strtod) (holds : Record → Prop) : Prop :=
  ∀ (dict : Dict) (body : Bytes) (cmd : List Bytes) (key : Bytes) (record : Record),
    body.length ≤ kMaxMsg → parseReq body = .ok (0, cmd) → EachRecord holds dict →
    RecordOrigin strtod dict key record cmd → holds record

/-- A call is one on the keyspace, and a request of it has come in a short frame; the
frame of a request that is not accepted changes nothing. -/
theorem DbStep.keyStep {strtod : Strtod} {g after : GData} {call : DbCall}
    (step : DbStep strtod g call after) :
    after = g ∨ ∃ keyCall, KeyStep strtod g keyCall after ∧
      ∀ alloc cmd, keyCall = .request alloc cmd →
        ∃ body : Bytes, body.length ≤ kMaxMsg ∧ parseReq body = .ok (0, cmd) := by
  obtain ⟨allowed, executed⟩ := step
  cases call with
  | request alloc body =>
      obtain ⟨⟨code, cmd⟩, parsed, rest⟩ := bind_eq_ok executed
      by_cases accepted : code = 0
      · simp only [accepted, ne_eq, not_true_eq_false, if_false] at rest
        refine .inr ⟨.request alloc cmd, ⟨allowed.1, rest⟩, ?_⟩
        intro _ _ same
        cases same
        exact ⟨body, allowed.2, accepted ▸ parsed⟩
      · simp only [ne_eq, accepted, not_false_eq_true, if_true] at rest
        cases rest
        exact .inl rfl
  | expire now key ttlMs =>
      exact .inr ⟨.expire now key ttlMs, ⟨trivial, executed⟩, fun _ _ contrary => by cases contrary⟩
  | timers now =>
      exact .inr ⟨.timers now, ⟨trivial, executed⟩, fun _ _ contrary => by cases contrary⟩

theorem DbStep.each {strtod : Strtod} {holds : Record → Prop}
    (kept : KeptByRequests strtod holds) (g : GData) (call : DbCall) (after : GData)
    (each : g.Each holds) (step : DbStep strtod g call after) : after.Each holds := by
  obtain ⟨ents, dict, due, represents, records⟩ := each
  rcases step.keyStep with same | ⟨keyCall, keyStep, short⟩
  · rw [same]
    exact ⟨ents, dict, due, represents, records⟩
  · obtain ⟨entsNew, dictNew, dueNew, afterRepresents, effect⟩ := keyStep.effect represents
    refine ⟨entsNew, dictNew, dueNew, afterRepresents, ?_⟩
    intro key record found
    rcases effect.origin found with was | ⟨alloc, cmd, isRequest, origin⟩
    · exact records key record was
    · obtain ⟨body, fits, parsed⟩ := short alloc cmd isRequest
      exact kept dict body cmd key record fits parsed records origin

theorem GData.each_empty (holds : Record → Prop) : ({} : GData).Each holds :=
  ⟨[], _, _, GData.Represents.empty, eachRecord_empty holds⟩

theorem shortValues_kept (strtod : Strtod) :
    KeptByRequests strtod fun record => record.val.length ≤ kMaxMsg := by
  intro dict body cmd key record short parsed records origin
  have args := args_short short parsed
  cases origin with
  | kept _ found => exact records key record found
  | set isSet source is =>
      rw [is]
      exact args _ (by simp)
  | zadd isZadd parsed source is =>
      rw [is]
      rcases source with present | created
      · have old := records key _ present.1
        exact old
      · rw [created.2]
        exact Nat.zero_le _
  | zrem isZrem found type is =>
      have old := records key _ found
      rw [is]
      exact old

theorem DbStep.short (strtod : Strtod) (g : GData) (call : DbCall) (after : GData)
    (holds : g.Short) (step : DbStep strtod g call after) : after.Short :=
  step.each (shortValues_kept strtod) g call after holds

/-- The frame that `try_one_request` packs for a request is a length of at most
`K_MAX_MSG - 4` and the encoding of one value, which is what the handler has written or
else the error for a reply that is too big, and the client decodes exactly that. -/
theorem replies_decode_to_one_value (strtod : Strtod) {trace : List DbCall} {g : GData}
    (run : Runs (DbStep strtod) {} trace g) {alloc : Alloc} (unused : alloc.Unused g)
    (cmd : List Bytes) :
    Meets
      (fun fault => fault = .spin ∨
        ∃ dict key record, g.Holds dict ∧ dict key = some record ∧ record.Huge)
      (fun result : GData × Bytes => ∃ written value : Value,
        result.2 = written.encode ∧ value = written.packed ∧ value.Exact ∧
          (∀ (w : World GData) len, (pack w len result.2).conn.wbuf =
            bytesU32 (UInt32.ofNat value.encode.length) ++ value.encode) ∧
          value.encode.length ≤ kMaxMsg - 4 ∧
          onResponse value.encode = .ok (Int32.ofNat value.encode.length, value.visits))
      (doRequest strtod g alloc cmd []) := by
  have start : ({} : GData).Short := GData.each_empty _
  rcases run.invariant (DbStep.short strtod) start with
    ⟨ents, dict, due, represents, shortValues⟩
  apply ((doRequest_spec strtod represents (unused.fresh represents) cmd).mono _).widen
  · intro fault excused
    cases excused with
    | spin => exact .inl rfl
    | longValue isGet found long => exact absurd (shortValues _ _ found) (Nat.not_le.mpr long)
    | hugeSet isZquery found huge =>
        exact .inr ⟨dict, _, _, ⟨ents, due, represents⟩, found, huge⟩
  · intro result follows
    rcases follows with ⟨written, _, _, replies⟩
    have small := length_packed written
    have out : result.2 = written.encode := replies.written
    refine ⟨written, _, out, rfl, exact_packed written, ?_, small, ?_⟩
    · intro w len
      change frame (packReply result.2) = _
      rw [out, packReply_encode]
      rfl
    · apply onResponse_encode (exact_packed written)
      unfold kMaxMsg at small
      omega

instance DbCall.decidableAllowed (g : GData) : (call : DbCall) → Decidable (call.Allowed g)
  | .request alloc body => inferInstanceAs (Decidable (alloc.Unused g ∧ body.length ≤ kMaxMsg))
  | .expire _ _ _ => .isTrue trivial
  | .timers _ => .isTrue trivial

def dbNext (strtod : Strtod) : GData → DbCall → Option GData :=
  guarded DbCall.Allowed (DbCall.exec strtod)

theorem dbNext_sound (strtod : Strtod) (g : GData) (call : DbCall) (after : GData)
    (stepped : dbNext strtod g call = some after) : DbStep strtod g call after :=
  guarded_sound g call after stepped

def storeTwo : List DbCall :=
  [.request ⟨1, 1⟩ (encodeReq [ascii "set", [97], [98]]),
    .request ⟨2, 1⟩ (encodeReq [ascii "zadd", [122], ascii "1", [109]]),
    .request ⟨3, 2⟩ [1, 2, 3], .timers 1000]

theorem replies_decode_keys :
    ∃ g result, Runs (DbStep strtodOne) {} storeTwo g ∧
      doRequest strtodOne g ⟨3, 2⟩ [ascii "keys"] [] = .ok result ∧
      ∃ value : Value, value.Exact ∧
        onResponse value.encode = .ok (Int32.ofNat value.encode.length, value.visits) ∧
        (pack { db := g } 0 result.2).conn.wbuf =
          bytesU32 (UInt32.ofNat value.encode.length) ++ value.encode := by
  have followed : ((follow (dbNext strtodOne) {} storeTwo).any fun g =>
      decide (Alloc.Unused ⟨3, 2⟩ g) &&
        (doRequest strtodOne g ⟨3, 2⟩ [ascii "keys"] []).toOption.isSome) = true := by
    decide +kernel
  rcases (Option.any_eq_true _ _).mp followed with ⟨g, gIs, both⟩
  rcases Bool.and_eq_true_iff.mp both with ⟨unused, returns⟩
  have run := runs_of_follow_eq (dbNext_sound strtodOne) gIs
  cases returned : doRequest strtodOne g ⟨3, 2⟩ [ascii "keys"] [] with
  | error fault =>
      rw [returned] at returns
      cases returns
  | ok result =>
      rcases (replies_decode_to_one_value strtodOne run (of_decide_eq_true unused)
        [ascii "keys"]).of_ok returned with ⟨_, value, _, _, exact, frames, _, decoded⟩
      exact ⟨g, result, run, returned, value, exact, decoded, frames { db := g } 0⟩

end RedisC
