/-
Expiry and time to live over whole runs.

A run is any order of requests, `do_expire`, `do_ttl` and `process_timers`.  In
every state that is reached `process_timers` removes the keys that are due, the
earliest first.  The deadline of a key is what `do_expire` has computed until a
call on that key changes it; it is the one that was asked for unless the sum has
passed the end of 64 bits.
-/

import RedisC.Expiry
import RedisC.KeyspaceRefinement

namespace RedisC

open Fallible LabelledRun

/-- The calls that touch the keyspace; those that read the clock are given the reading. -/
inductive KeyCall
  | request (alloc : Alloc) (cmd : List Bytes)
  | expire (now : UInt64) (key ttlMs : Bytes)
  | ttl (now : UInt64) (key : Bytes)
  | timers (now : UInt64)

def KeyCall.exec (strtod : Strtod) (g : GData) : KeyCall → Except Fault GData
  | .request alloc cmd => do
      let (g, _) ← doRequest strtod g alloc cmd []
      pure g
  | .expire now key ttlMs => do
      let (g, _) ← doExpire g now key ttlMs []
      pure g
  | .ttl now key => do
      let (g, _) ← doTtl g now key []
      pure g
  | .timers now => processTtlTimers g now

def KeyCall.Fresh (g : GData) : KeyCall → Prop
  | .request alloc _ => alloc.Unused g
  | _ => True

def KeyStep (strtod : Strtod) (g : GData) (call : KeyCall) (after : GData) : Prop :=
  call.Fresh g ∧ call.exec strtod g = .ok after

/-! ### One call -/

section

variable {g : GData} {ents : List Ptr} {dict : Dict} {due : Bytes → Option UInt64}

def ttlLeft (deadline now : UInt64) : UInt64 :=
  if deadline > now then (deadline - now) / 1000 else 0

def ttlReply (dict : Dict) (due : Bytes → Option UInt64) (now : UInt64) (key : Bytes) : Int64 :=
  match dict key, due key with
  | none, _ => -2
  | some _, none => -1
  | some _, some deadline => (ttlLeft deadline now).toInt64

theorem doTtl_spec (represents : g.Represents ents dict due) (now : UInt64) (key out : Bytes) :
    Meets (g.LookupSpins key)
      (fun result : GData × Bytes => result.1.Represents ents dict due ∧
        result.2 = outInt out (ttlReply dict due now key))
      (doTtl g now key out) := by
  unfold doTtl ttlReply
  apply represents.lookup_meets key fun _ spins => spins
  · intro after afterRepresents _ _ missing
    simp only [missing]
    exact ⟨afterRepresents, rfl⟩
  · intro after ent record afterRepresents _ member keyIs found _
    have dated := afterRepresents.dated ent member
    rw [keyIs, Timers.deadline] at dated
    simp only [found]
    cases index : after.timers.heapIdx ent with
    | none =>
        simp only [index] at dated
        rw [← dated]
        exact ⟨afterRepresents, rfl⟩
    | some i =>
        obtain ⟨item, itemIs, -⟩ := afterRepresents.linked.listed index
        have read : itemAt after.timers.heap i = .ok item := by
          rw [itemAt, itemIs]
        simp only [index, itemIs, Option.map_some] at dated
        simp only [read, ok_bind]
        rw [← dated]
        exact ⟨afterRepresents, rfl⟩

end

def GData.Valid (g : GData) : Prop := ∃ ents dict due, g.Represents ents dict due

/-- What a call does to the dictionary and to the deadlines. -/
inductive KeyEffect (strtod : Strtod) (dict : Dict) (due : Bytes → Option UInt64) :
    KeyCall → Dict → (Bytes → Option UInt64) → Prop
  | request (alloc : Alloc) (cmd : List Bytes) :
      KeyEffect strtod dict due (.request alloc cmd) (Reference.request strtod dict cmd).1
        (dueRequest due cmd)
  | expire (now : UInt64) (key ttlMs : Bytes) :
      KeyEffect strtod dict due (.expire now key ttlMs) dict (dueAfter dict due now key ttlMs)
  | ttl (now : UInt64) (key : Bytes) : KeyEffect strtod dict due (.ttl now key) dict due
  | timers (now : UInt64) (gone : List Bytes) :
      KeyEffect strtod dict due (.timers now) (without dict gone) (without due gone)

theorem KeyStep.effect {strtod : Strtod} {g after : GData} {call : KeyCall} {ents : List Ptr}
    {dict : Dict} {due : Bytes → Option UInt64} (step : KeyStep strtod g call after)
    (represents : g.Represents ents dict due) :
    ∃ entsNew dictNew dueNew, after.Represents entsNew dictNew dueNew ∧
      KeyEffect strtod dict due call dictNew dueNew := by
  obtain ⟨fresh, executed⟩ := step
  cases call with
  | request alloc cmd =>
      obtain ⟨⟨last, out⟩, returned, final⟩ := bind_eq_ok executed
      cases final
      obtain ⟨value, -, replies⟩ := (doRequest_keeps_due strtod represents
        (Alloc.Unused.fresh fresh represents) cmd).of_ok returned
      obtain ⟨entsNew, afterRepresents⟩ := replies.represents
      exact ⟨entsNew, _, _, afterRepresents, .request alloc cmd⟩
  | expire now key ttlMs =>
      obtain ⟨⟨last, out⟩, returned, final⟩ := bind_eq_ok executed
      cases final
      have afterRepresents := (doExpire_spec represents now key ttlMs []).of_ok returned
      exact ⟨ents, _, _, afterRepresents, .expire now key ttlMs⟩
  | ttl now key =>
      obtain ⟨⟨last, out⟩, returned, final⟩ := bind_eq_ok executed
      cases final
      have afterRepresents := ((doTtl_spec represents now key []).of_ok returned).1
      exact ⟨ents, _, _, afterRepresents, .ttl now key⟩
  | timers now =>
      obtain ⟨gone, expired⟩ := (processTtlTimers_spec represents now).of_ok executed
      obtain ⟨entsNew, afterRepresents⟩ := expired.represents
      exact ⟨entsNew, _, _, afterRepresents, .timers now gone⟩

theorem KeyStep.valid (strtod : Strtod) (g : GData) (call : KeyCall) (after : GData)
    (valid : g.Valid) (step : KeyStep strtod g call after) : after.Valid := by
  obtain ⟨ents, dict, due, represents⟩ := valid
  obtain ⟨entsNew, dictNew, dueNew, afterRepresents, -⟩ := step.effect represents
  exact ⟨entsNew, dictNew, dueNew, afterRepresents⟩

theorem key_runs_valid {strtod : Strtod} {trace : List KeyCall} {g : GData}
    (run : Runs (KeyStep strtod) {} trace g) : g.Valid :=
  run.invariant (KeyStep.valid strtod) ⟨[], _, _, GData.Represents.empty⟩

/-! ### Expiry -/

/-- From every state that is reached, `process_timers` removes as many entries as there are
items of the heap that are due, but at most `k_max_works + 1`: entries that were due, from
the map and from the heap, none of them after one that is left.  All other entries keep
what they have, and the heap and the indexes in the entries agree. -/
theorem expiry_removes_due_entries (strtod : Strtod) {trace : List KeyCall} {g : GData}
    (run : Runs (KeyStep strtod) {} trace g) (now : UInt64) :
    Meets (g.ExpirySpins now)
      (fun after => ∃ gone : List Ptr,
        gone.length = min (dueCount (now + 1000) g.timers.heap) 2001 ∧ gone.Nodup ∧
        gone ⊆ g.owners ∧ after.owners.Perm (g.owners.filter (· ∉ gone)) ∧
        after.timers.heap.Perm (g.timers.heap.filter fun item => item.ref ∉ gone) ∧
        (∀ ent ∈ gone, ∃ item ∈ g.timers.heap, item.ref = ent ∧ item.val < now + 1000 ∧
          ∀ left ∈ after.timers.heap, item.val ≤ left.val) ∧
        (∀ ent ∈ after.owners, after.entry ent = g.entry ent ∧
          after.timers.deadline ent = g.timers.deadline ent) ∧
        after.Indexed)
      (processTtlTimers g now) := by
  obtain ⟨ents, dict, due, represents⟩ := key_runs_valid run
  apply (processTtlTimers_sweeps represents now).mono
  intro after sweeps
  obtain ⟨gone, swept, inside, count, afterRepresents⟩ := sweeps
  have owners := represents.keyed.nodes_perm
  have left := afterRepresents.keyed.nodes_perm
  refine ⟨gone, count, swept.nodup, ?_, ?_, ?_, ?_, ?_, afterRepresents.indexed⟩
  · intro ent member
    exact owners.mem_iff.mpr (inside member)
  · exact left.trans (owners.filter _).symm
  · exact heap_perm_of_deadline represents.linked afterRepresents.linked swept.deadline
  · intro ent member
    obtain ⟨deadline, deadlineIs, early, lowest⟩ := swept.wasDue ent member
    obtain ⟨item, inHeap, refIs, valIs⟩ := represents.linked.deadline_eq_some_iff.mp deadlineIs
    refine ⟨item, inHeap, refIs, valIs ▸ early, fun later laterIn => ?_⟩
    rw [valIs]
    exact lowest later.ref later.val ((afterRepresents.linked.mem_iff later).mp laterIn)
  · intro ent member
    have kept := (List.mem_filter.mp (left.mem_iff.mp member)).2
    rw [swept.entry, swept.deadline, if_neg (of_decide_eq_true kept)]
    exact ⟨rfl, rfl⟩

instance KeyCall.decidableFresh (g : GData) : (call : KeyCall) → Decidable (call.Fresh g)
  | .request alloc _ => inferInstanceAs (Decidable (alloc.Unused g))
  | .expire _ _ _ => .isTrue trivial
  | .ttl _ _ => .isTrue trivial
  | .timers _ => .isTrue trivial

def keyNext (strtod : Strtod) : GData → KeyCall → Option GData :=
  guarded KeyCall.Fresh (KeyCall.exec strtod)

theorem keyNext_sound (strtod : Strtod) (g : GData) (call : KeyCall) (after : GData)
    (stepped : keyNext strtod g call = some after) : KeyStep strtod g call after :=
  guarded_sound g call after stepped

def threeDeadlines : List KeyCall :=
  [.request ⟨1, 1⟩ [ascii "set", [97], [120]],
    .request ⟨2, 1⟩ [ascii "zadd", [98], ascii "1", [109]],
    .request ⟨3, 2⟩ [ascii "set", [99], []],
    .expire 100 [97] (ascii "7"), .expire 200 [98] (ascii "5"), .expire 300 [99] (ascii "3")]

theorem expiry_removes_two_of_three :
    ∃ g after, Runs (KeyStep strtodOne) {} threeDeadlines g ∧
      processTtlTimers g 5000 = .ok after ∧
      ∃ gone : List Ptr, gone.length = 2 ∧ gone ⊆ g.owners ∧
        after.owners.Perm (g.owners.filter (· ∉ gone)) ∧ after.Indexed := by
  have followed : ((follow (keyNext strtodOne) {} threeDeadlines).any fun g =>
      decide (dueCount (5000 + 1000) g.timers.heap = 2) &&
        (processTtlTimers g 5000).toOption.isSome) = true := by
    decide +kernel
  obtain ⟨g, gIs, both⟩ := (Option.any_eq_true _ _).mp followed
  obtain ⟨counted, returns⟩ := Bool.and_eq_true_iff.mp both
  have run := runs_of_follow_eq (keyNext_sound strtodOne) gIs
  cases returned : processTtlTimers g 5000 with
  | error fault =>
      rw [returned] at returns
      cases returns
  | ok after =>
      obtain ⟨gone, count, -, inside, left, -, -, -, indexed⟩ :=
        (expiry_removes_due_entries strtodOne run 5000).of_ok returned
      rw [of_decide_eq_true counted] at count
      exact ⟨g, after, run, returned, gone, count, inside, left, indexed⟩

/-! ### Time to live -/

private theorem toInt64_toInt_of_lt {value : UInt64} (small : value.toNat < 2 ^ 63) :
    value.toInt64.toInt = value.toNat := by
  rw [Int64.toInt, UInt64.toBitVec_toInt64, BitVec.toInt_eq_toNat_of_lt]
  · rfl
  · change 2 * value.toNat < 2 ^ 64
    omega

/-- `do_ttl` rounds what is left down, over the integers. -/
private theorem ttlLeft_toInt (deadline now : UInt64) :
    (ttlLeft deadline now).toInt64.toInt =
      max 0 (((deadline.toNat : Int) - now.toNat) / 1000) := by
  have bound := deadline.toNat_lt
  have unit : (1000 : UInt64).toNat = 1000 := rfl
  unfold ttlLeft
  by_cases later : deadline > now
  · have order := UInt64.lt_iff_toNat_lt.mp later
    have quotient : ((deadline - now) / 1000).toNat = (deadline.toNat - now.toNat) / 1000 := by
      rw [UInt64.toNat_div, UInt64.toNat_sub_of_le _ _ (UInt64.le_of_lt later), unit]
    rw [if_pos later, toInt64_toInt_of_lt (by omega), quotient]
    omega
  · have order : deadline.toNat ≤ now.toNat :=
      UInt64.le_iff_toNat_le.mp (UInt64.not_lt.mp later)
    rw [if_neg later, toInt64_toInt_of_lt (by decide)]
    change (0 : Int) = _
    omega

/-- The sum is taken modulo `2 ^ 64`. -/
private theorem ttlDeadline_toNat (ttlMs : Int) (now : UInt64) :
    (ttlDeadline ttlMs now).toNat = (now.toNat + 1000 * ttlMs.toNat) % 2 ^ 64 := by
  have unit : (1000 : UInt64).toNat = 1000 := rfl
  rw [ttlDeadline, UInt64.toNat_add, UInt64.toNat_mul, UInt64.toNat_ofNat', unit]
  omega

private theorem outInt_inj {left right : Int64} (same : outInt [] left = outInt [] right) :
    left = right := by
  have words := bytesU64_inj (List.append_cancel_left same)
  cases left
  cases right
  cases words
  rfl

def GData.HasKey (g : GData) (key : Bytes) : Prop :=
  ∃ node ∈ g.db.nodes, (g.entry node.owner).key = key

/-- `do_expire` or `del` on `key`. -/
def KeyCall.Touches (key : Bytes) : KeyCall → Prop
  | .request _ cmd => ∃ word, cmd = [word, key] ∧ cmdIs word "del" = true
  | .expire _ other _ => other = key
  | _ => False

def LeavesStep (strtod : Strtod) (key : Bytes) (g : GData) (call : KeyCall) (after : GData) :
    Prop :=
  KeyStep strtod g call after ∧ ¬call.Touches key ∧ after.HasKey key

/-- `key` has the deadline `asked`, which is a time on a clock without end: `do_ttl` and
`process_timers` return with this wherever their calls on the map return. -/
structure GData.Lasts (g : GData) (key : Bytes) (asked : Int) : Prop where
  ttl : ∀ now : UInt64, Meets (g.LookupSpins key)
    (fun result : GData × Bytes => ∃ reply : Int64, result.2 = outInt [] reply ∧
      reply.toInt = max 0 ((asked - now.toNat) / 1000))
    (doTtl g now key [])
  timers : ∀ now : UInt64, Meets (g.ExpirySpins now)
    (fun after : GData => ¬after.HasKey key → asked < now.toNat + 1000)
    (processTtlTimers g now)

def GData.DueAt (g : GData) (key : Bytes) (deadline : UInt64) : Prop :=
  ∃ ents dict due, g.Represents ents dict due ∧ (dict key).isSome = true ∧
    due key = some deadline

section

variable {g : GData} {ents : List Ptr} {dict : Dict} {due : Bytes → Option UInt64} {key : Bytes}

theorem GData.Represents.hasKey_iff (represents : g.Represents ents dict due) :
    g.HasKey key ↔ (dict key).isSome = true := by
  have owners := represents.keyed.nodes_perm
  constructor
  · intro present
    obtain ⟨node, member, keyIs⟩ := present
    obtain ⟨record, found, -⟩ := represents.recorded node.owner
      (owners.mem_iff.mp (List.mem_map_of_mem member))
    rw [← keyIs, found]
    rfl
  · intro found
    by_contra missing
    have absent := represents.absent key (by
      intro ent member keyIs
      obtain ⟨node, nodeMember, rfl⟩ := List.mem_map.mp (owners.mem_iff.mpr member)
      exact missing ⟨node, nodeMember, keyIs⟩)
    rw [absent.1] at found
    cases found

theorem dueAfter_of_ne {now : UInt64} {other ttlMs : Bytes} (apart : key ≠ other) :
    dueAfter dict due now other ttlMs key = due key := by
  unfold dueAfter
  cases str2int ttlMs with
  | none => rfl
  | some ttlMs =>
      cases dict other with
      | none => rfl
      | some record => exact Function.update_of_ne apart _ _

theorem dueRequest_of_untouched {alloc : Alloc} {cmd : List Bytes}
    (untouched : ¬(KeyCall.request alloc cmd).Touches key) :
    dueRequest due cmd key = due key := by
  unfold dueRequest
  split
  · rename_i word other
    split
    · rfl
    · split
      · rename_i isDel
        apply Function.update_of_ne
        intro same
        exact untouched ⟨word, by rw [same], isDel⟩
      · rfl
  · rfl

end

theorem LeavesStep.dueAt (strtod : Strtod) (key : Bytes) (deadline : UInt64) (g : GData)
    (call : KeyCall) (after : GData) (dueAt : g.DueAt key deadline)
    (step : LeavesStep strtod key g call after) : after.DueAt key deadline := by
  obtain ⟨ents, dict, due, represents, present, dueIs⟩ := dueAt
  obtain ⟨keyStep, untouched, stays⟩ := step
  obtain ⟨entsNew, dictNew, dueNew, afterRepresents, effect⟩ := keyStep.effect represents
  have found := afterRepresents.hasKey_iff.mp stays
  refine ⟨entsNew, dictNew, dueNew, afterRepresents, found, ?_⟩
  cases effect with
  | request alloc cmd =>
      rw [dueRequest_of_untouched untouched]
      exact dueIs
  | expire now other ttlMs =>
      rw [dueAfter_of_ne fun same => untouched same.symm]
      exact dueIs
  | ttl now other => exact dueIs
  | timers now gone =>
      unfold without at found ⊢
      split at found
      · cases found
      · rename_i kept
        rw [if_neg kept]
        exact dueIs

/-- What `do_ttl` replies and when `process_timers` removes the key, for a deadline in the heap. -/
theorem GData.DueAt.lasts {g : GData} {key : Bytes} {deadline : UInt64}
    (dueAt : g.DueAt key deadline) : g.Lasts key deadline.toNat := by
  obtain ⟨ents, dict, due, represents, present, dueIs⟩ := dueAt
  obtain ⟨record, found⟩ := Option.isSome_iff_exists.mp present
  constructor
  · intro now
    apply (doTtl_spec represents now key []).mono
    intro result replied
    refine ⟨_, replied.2, ?_⟩
    rw [ttlReply, found, dueIs]
    exact ttlLeft_toInt deadline now
  · intro now
    apply (processTtlTimers_spec represents now).mono
    intro after expired
    obtain ⟨gone, expired⟩ := expired
    obtain ⟨entsNew, afterRepresents⟩ := expired.represents
    intro removed
    have inGone : key ∈ gone := by
      by_contra kept
      apply removed
      rw [afterRepresents.hasKey_iff, without, if_neg kept]
      exact present
    obtain ⟨other, otherIs, early⟩ := expired.wasDue key inGone
    rw [dueIs, Option.some.injEq] at otherIs
    rw [← otherIs] at early
    have sum : (now + 1000).toNat ≤ now.toNat + 1000 := by
      rw [UInt64.toNat_add]
      exact Nat.mod_le _ _
    have before := UInt64.lt_iff_toNat_lt.mp early
    omega

private theorem doExpire_dueAt {g : GData} {key ttlText : Bytes} {ttlMs : Int} (valid : g.Valid)
    (present : g.HasKey key) (parsed : str2int ttlText = some ttlMs) (nonneg : 0 ≤ ttlMs)
    {now : UInt64} {result : GData × Bytes}
    (returned : doExpire g now key ttlText [] = .ok result) :
    result.1.DueAt key (ttlDeadline ttlMs now) := by
  obtain ⟨ents, dict, due, represents⟩ := valid
  have found := represents.hasKey_iff.mp present
  obtain ⟨record, recordIs⟩ := Option.isSome_iff_exists.mp found
  have after := (doExpire_spec represents now key ttlText []).of_ok returned
  refine ⟨ents, dict, _, after, found, ?_⟩
  rw [dueAfter, parsed, recordIs]
  simp only [Function.update_self, expireAt]
  rw [if_neg (Int.not_lt.mpr nonneg)]

/-- A TTL lasts as long as it was asked to if the deadline fits in 64 bits: whatever is done
to other keys, as long as the key is there.  If it does not fit, `do_ttl` at once replies
something else. -/
theorem ttl_lasts_as_asked (strtod : Strtod) {past : List KeyCall} {g before : GData}
    (run : Runs (KeyStep strtod) {} past before) {key ttlText reply : Bytes} {ttlMs : Int}
    (present : before.HasKey key) (parsed : str2int ttlText = some ttlMs) (nonneg : 0 ≤ ttlMs)
    {start : UInt64} (set : doExpire before start key ttlText [] = .ok (g, reply)) :
    (start.toNat + 1000 * ttlMs < 2 ^ 64 →
      ∀ trace after, Runs (LeavesStep strtod key) g trace after →
        after.Lasts key (start.toNat + 1000 * ttlMs)) ∧
      (2 ^ 64 ≤ start.toNat + 1000 * ttlMs → (doTtl g start key []).isOk = true →
        ¬g.Lasts key (start.toNat + 1000 * ttlMs)) := by
  have dueAt := doExpire_dueAt (key_runs_valid run) present parsed nonneg set
  have deadline := ttlDeadline_toNat ttlMs start
  constructor
  · intro fits trace after others
    have lasts := (others.invariant (LeavesStep.dueAt strtod key _) dueAt).lasts
    have asAsked : (ttlDeadline ttlMs start).toNat = start.toNat + 1000 * ttlMs := by omega
    rw [asAsked] at lasts
    exact lasts
  · intro wraps returns lasts
    cases returned : doTtl g start key [] with
    | error fault =>
        rw [returned] at returns
        cases returns
    | ok result =>
        obtain ⟨asked, askedIs, askedLeft⟩ := (lasts.ttl start).of_ok returned
        obtain ⟨given, givenIs, givenLeft⟩ := (dueAt.lasts.ttl start).of_ok returned
        have same : asked = given := outInt_inj (askedIs.symm.trans givenIs)
        rw [same, givenLeft, deadline] at askedLeft
        have clock := start.toNat_lt
        omega

instance (g : GData) (key : Bytes) : Decidable (g.HasKey key) :=
  inferInstanceAs (Decidable (∃ node ∈ g.db.nodes, (g.entry node.owner).key = key))

instance KeyCall.decidableTouches (key : Bytes) :
    (call : KeyCall) → Decidable (call.Touches key)
  | .request _ [word, other] =>
      decidable_of_iff (other = key ∧ cmdIs word "del" = true)
        ⟨fun both => ⟨word, by rw [both.1], both.2⟩, fun ⟨_, same, isDel⟩ => by
          cases same
          exact ⟨rfl, isDel⟩⟩
  | .request _ [] => .isFalse fun ⟨_, contrary, _⟩ => nomatch contrary
  | .request _ [_] => .isFalse fun ⟨_, contrary, _⟩ => nomatch contrary
  | .request _ (_ :: _ :: _ :: _) => .isFalse fun ⟨_, contrary, _⟩ => nomatch contrary
  | .expire _ other _ => inferInstanceAs (Decidable (other = key))
  | .ttl _ _ => .isFalse id
  | .timers _ => .isFalse id

def leavesNext (strtod : Strtod) (key : Bytes) (g : GData) (call : KeyCall) : Option GData :=
  (keyNext strtod g call).filter fun after => ¬call.Touches key ∧ after.HasKey key

theorem leavesNext_sound (strtod : Strtod) (key : Bytes) (g : GData) (call : KeyCall)
    (after : GData) (stepped : leavesNext strtod key g call = some after) :
    LeavesStep strtod key g call after := by
  obtain ⟨next, leaves⟩ := Option.filter_eq_some_iff.mp stepped
  exact ⟨keyNext_sound strtod g call after next, of_decide_eq_true leaves⟩

def setOne : List KeyCall := [.request ⟨1, 1⟩ [ascii "set", [97], [120]]]

def otherCalls : List KeyCall :=
  [.request ⟨2, 1⟩ [ascii "set", [98], []], .expire 200 [98] (ascii "1"), .ttl 300 [97],
    .timers 2000, .request ⟨2, 1⟩ [ascii "set", [97], []]]

theorem ttl_lasts_seven_milliseconds :
    ∃ before g after, Runs (KeyStep strtodOne) {} setOne before ∧
      doExpire before 100 [97] (ascii "7") [] = .ok (g, outInt [] 1) ∧
      Runs (LeavesStep strtodOne [97]) g otherCalls after ∧ after.Lasts [97] 7100 := by
  have followed : ((follow (keyNext strtodOne) {} setOne).any fun before =>
      decide (before.HasKey [97]) &&
        (doExpire before 100 [97] (ascii "7") []).toOption.any fun result =>
          decide (result.2 = outInt [] 1) &&
            (follow (leavesNext strtodOne [97]) result.1 otherCalls).isSome) = true := by
    decide +kernel
  obtain ⟨before, beforeIs, both⟩ := (Option.any_eq_true _ _).mp followed
  obtain ⟨present, expires⟩ := Bool.and_eq_true_iff.mp both
  obtain ⟨⟨g, reply⟩, resultIs, rest⟩ := (Option.any_eq_true _ _).mp expires
  obtain ⟨replyIs, others⟩ := Bool.and_eq_true_iff.mp rest
  have run := runs_of_follow_eq (keyNext_sound strtodOne) beforeIs
  have returned := eq_ok_of_toOption resultIs
  obtain ⟨after, later⟩ := runs_of_follow (leavesNext_sound strtodOne [97]) others
  have lasts := (ttl_lasts_as_asked strtodOne run (of_decide_eq_true present)
    (show str2int (ascii "7") = some 7 by decide) (by decide) returned).1 (by decide)
    otherCalls after later
  have written : reply = outInt [] 1 := of_decide_eq_true replyIs
  rw [written] at returned
  exact ⟨before, g, after, run, returned, later, lasts⟩

/-- The deadline of a TTL of 18446744073709552 ms, set at 1, is 385. -/
theorem long_ttl_removed_at_once :
    ∃ before g after, Runs (KeyStep strtodOne) {} setOne before ∧ before.HasKey [97] ∧
      str2int (ascii "18446744073709552") = some 18446744073709552 ∧
      doExpire before 1 [97] (ascii "18446744073709552") [] = .ok (g, outInt [] 1) ∧
      processTtlTimers g 1 = .ok after ∧ ¬after.HasKey [97] ∧
      ¬g.Lasts [97] (1 + 1000 * 18446744073709552) := by
  have followed : ((follow (keyNext strtodOne) {} setOne).any fun before =>
      decide (before.HasKey [97]) &&
        (doExpire before 1 [97] (ascii "18446744073709552") []).toOption.any fun result =>
          decide (result.2 = outInt [] 1) &&
            (processTtlTimers result.1 1).toOption.any fun after =>
              decide (¬after.HasKey [97])) = true := by
    decide +kernel
  obtain ⟨before, beforeIs, both⟩ := (Option.any_eq_true _ _).mp followed
  obtain ⟨present, expires⟩ := Bool.and_eq_true_iff.mp both
  obtain ⟨⟨g, reply⟩, resultIs, rest⟩ := (Option.any_eq_true _ _).mp expires
  obtain ⟨replyIs, timers⟩ := Bool.and_eq_true_iff.mp rest
  obtain ⟨after, afterIs, removed⟩ := (Option.any_eq_true _ _).mp timers
  have returned := eq_ok_of_toOption resultIs
  have expired := eq_ok_of_toOption afterIs
  have gone := of_decide_eq_true removed
  have written : reply = outInt [] 1 := of_decide_eq_true replyIs
  rw [written] at returned
  refine ⟨before, g, after, runs_of_follow_eq (keyNext_sound strtodOne) beforeIs,
    of_decide_eq_true present, by decide, returned, expired, gone, fun lasts => ?_⟩
  have early := (lasts.timers 1).of_ok expired gone
  exact absurd early (by decide)

end RedisC
