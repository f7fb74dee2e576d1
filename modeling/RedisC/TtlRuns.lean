/-
Time to live over whole runs.

The reference maps each key that is there to its deadline, if it has one.
`do_expire` and the handlers change it at their own key only, and `process_timers`
takes out keys that are due.  In every state that is reached the heap, the
indexes in the entries and the map agree with it.
-/

import RedisC.Lib.LabelledRun
import RedisC.Expiry
import RedisC.KeyspaceRefinement

namespace RedisC

open Fallible LabelledRun

/-- `do_expire` and `process_timers` are given the reading of the clock. -/
inductive TtlCall
  | set (alloc : Alloc) (key val : Bytes)
  | del (key : Bytes)
  | zadd (alloc : Alloc) (key score name : Bytes)
  | expire (now : UInt64) (key ttlMs : Bytes)
  | timers (now : UInt64)

def TtlCall.exec (strtod : Strtod) (g : GData) : TtlCall → Except Fault GData
  | .set alloc key val => do
      let (g, _) ← doSet g alloc key val []
      pure g
  | .del key => do
      let (g, _) ← doDel g key []
      pure g
  | .zadd alloc key score name => do
      let (g, _) ← doZadd strtod g alloc key score name []
      pure g
  | .expire now key ttlMs => do
      let (g, _) ← doExpire g now key ttlMs []
      pure g
  | .timers now => processTtlTimers g now

def TtlCall.Fresh (g : GData) : TtlCall → Prop
  | .set alloc _ _ => alloc.Unused g
  | .zadd alloc _ _ _ => alloc.Unused g
  | _ => True

def TtlStep (strtod : Strtod) (g : GData) (call : TtlCall) (after : GData) : Prop :=
  call.Fresh g ∧ call.exec strtod g = .ok after

/-- No value for a key that is not there, and no deadline for a key without one. -/
abbrev Deadlines := Bytes → Option (Option UInt64)

def Deadlines.touch (deadlines : Deadlines) (key : Bytes) : Deadlines :=
  Function.update deadlines key (some ((deadlines key).getD none))

def Deadlines.assign (deadlines : Deadlines) (key : Bytes) (deadline : Option UInt64) :
    Deadlines :=
  Function.update deadlines key ((deadlines key).map fun _ => deadline)

def DeadlineStep (strtod : Strtod) (before : Deadlines) (call : TtlCall) (after : Deadlines) :
    Prop :=
  match call with
  | .set _ key _ => after = before.touch key
  | .del key => after = Function.update before key none
  | .zadd _ key score _ =>
      after = if (str2double strtod score).isSome then before.touch key else before
  | .expire now key ttlMs =>
      after = match str2int ttlMs with
        | none => before
        | some ttlMs => before.assign key (expireAt ttlMs now)
  | .timers now =>
      ∃ gone : List Bytes, after = without before gone ∧
        ∀ key ∈ gone, ∃ deadline, before key = some (some deadline) ∧ deadline < now + 1000

/-! ### One step -/

section

variable {g : GData} {ents : List Ptr} {dict : Dict} {due : Bytes → Option UInt64}

def deadlinesOf (dict : Dict) (due : Bytes → Option UInt64) : Deadlines :=
  fun key => (dict key).map fun _ => due key

theorem GData.Represents.due_eq_none (represents : g.Represents ents dict due) {key : Bytes}
    (missing : dict key = none) : due key = none := by
  apply (represents.absent key _).2
  intro ent member keyIs
  rcases represents.recorded ent member with ⟨record, found, _⟩
  rw [keyIs, missing] at found
  cases found

private theorem deadlinesOf_store (represents : g.Represents ents dict due) (key : Bytes)
    (record : Record) :
    deadlinesOf (Function.update dict key (some record)) due =
      (deadlinesOf dict due).touch key := by
  funext other
  unfold Deadlines.touch
  by_cases same : other = key
  · rw [same, Function.update_self, deadlinesOf, Function.update_self, deadlinesOf]
    cases found : dict key with
    | none => rw [represents.due_eq_none found]; rfl
    | some old => rfl
  · rw [Function.update_of_ne same, deadlinesOf, Function.update_of_ne same, deadlinesOf]

private theorem deadlinesOf_remove (key : Bytes) :
    deadlinesOf (Function.update dict key none) (Function.update due key none) =
      Function.update (deadlinesOf dict due) key none := by
  funext other
  by_cases same : other = key
  · rw [same, Function.update_self, deadlinesOf, Function.update_self, Function.update_self,
      Option.map_none]
  · rw [Function.update_of_ne same, deadlinesOf, Function.update_of_ne same,
      Function.update_of_ne same, deadlinesOf]

private theorem deadlinesOf_without (gone : List Bytes) :
    deadlinesOf (without dict gone) (without due gone) = without (deadlinesOf dict due) gone := by
  funext key
  unfold deadlinesOf without
  split
  · rfl
  · rfl

private theorem deadlinesOf_set (represents : g.Represents ents dict due) (key val : Bytes) :
    deadlinesOf (Reference.set dict key val).1 due = (deadlinesOf dict due).touch key := by
  unfold Reference.set
  split
  · exact deadlinesOf_store represents key _
  · exact deadlinesOf_store represents key _

private theorem touch_present {deadlines : Deadlines} {key : Bytes} {value : Option UInt64}
    (found : deadlines key = some value) : deadlines.touch key = deadlines := by
  rw [Deadlines.touch, found, Option.getD_some, ← found, Function.update_eq_self]

private theorem deadlinesOf_zadd (strtod : Strtod) (represents : g.Represents ents dict due)
    (key score name : Bytes) :
    deadlinesOf (Reference.zadd strtod dict key score name).1 due =
      if (str2double strtod score).isSome then (deadlinesOf dict due).touch key
      else deadlinesOf dict due := by
  unfold Reference.zadd
  cases str2double strtod score with
  | none => rfl
  | some score =>
      rw [Option.isSome_some, if_pos rfl]
      cases found : dict key with
      | none => exact deadlinesOf_store represents key _
      | some record =>
          simp only
          split
          · have present : deadlinesOf dict due key = some (due key) := by
              rw [deadlinesOf, found, Option.map_some]
            exact (touch_present present).symm
          · exact deadlinesOf_store represents key _

private theorem deadlinesOf_del (key : Bytes) :
    deadlinesOf (Reference.del dict key).1 (Function.update due key none) =
      Function.update (deadlinesOf dict due) key none := by
  rw [← deadlinesOf_remove]
  unfold Reference.del
  split
  · rename_i missing
    rw [← missing, Function.update_eq_self]
  · rfl

private theorem deadlinesOf_expire (now : UInt64) (key ttlMs : Bytes) :
    deadlinesOf dict (dueAfter dict due now key ttlMs) =
      match str2int ttlMs with
      | none => deadlinesOf dict due
      | some ttlMs => (deadlinesOf dict due).assign key (expireAt ttlMs now) := by
  unfold dueAfter Deadlines.assign
  cases str2int ttlMs with
  | none => rfl
  | some ttlMs =>
      simp only
      cases found : dict key with
      | none =>
          have missing : deadlinesOf dict due key = none := by
            rw [deadlinesOf, found, Option.map_none]
          simp only [missing, Option.map_none]
          rw [← missing, Function.update_eq_self]
      | some record =>
          simp only
          funext other
          by_cases same : other = key
          · rw [same, Function.update_self, deadlinesOf, Function.update_self, deadlinesOf, found]
            rfl
          · rw [Function.update_of_ne same, deadlinesOf, Function.update_of_ne same, deadlinesOf]

def GData.Keeps (g : GData) (deadlines : Deadlines) : Prop :=
  ∃ ents dict due, g.Represents ents dict due ∧ deadlinesOf dict due = deadlines

/-- Each call follows the reference, and only a call of the map can spin. -/
theorem TtlCall.exec_spec (strtod : Strtod) (represents : g.Represents ents dict due)
    {call : TtlCall} (fresh : call.Fresh g) :
    Meets (· = .spin)
      (fun after : GData => ∃ deadlines,
        DeadlineStep strtod (deadlinesOf dict due) call deadlines ∧ after.Keeps deadlines)
      (call.exec strtod g) := by
  cases call with
  | set alloc key val =>
      apply (doSet_spec represents (Alloc.Unused.fresh fresh represents) key val []).bind
      intro result replies
      rcases replies.represents with ⟨entsNew, after⟩
      exact ⟨_, deadlinesOf_set represents key val, entsNew, _, _, after, rfl⟩
  | del key =>
      apply (doDel_spec represents key []).bind
      intro result replies
      rcases replies.represents with ⟨entsNew, after⟩
      exact ⟨_, deadlinesOf_del key, entsNew, _, _, after, rfl⟩
  | zadd alloc key score name =>
      apply (doZadd_spec strtod represents (Alloc.Unused.fresh fresh represents) key score name
        []).bind
      intro result replies
      rcases replies.represents with ⟨entsNew, after⟩
      exact ⟨_, deadlinesOf_zadd strtod represents key score name, entsNew, _, _, after, rfl⟩
  | expire now key ttlMs =>
      apply (doExpire_spec represents now key ttlMs []).bind
      intro result after
      exact ⟨_, deadlinesOf_expire now key ttlMs, ents, _, _, after, rfl⟩
  | timers now =>
      apply ((processTtlTimers_spec represents now).widen fun _ spins => spins.1).mono
      intro after expired
      rcases expired with ⟨gone, expired⟩
      rcases expired.represents with ⟨entsNew, afterRepresents⟩
      refine ⟨_, ⟨gone, deadlinesOf_without gone, ?_⟩, entsNew, _, _, afterRepresents, rfl⟩
      intro key member
      rcases expired.wasDue key member with ⟨deadline, dueIs, early⟩
      rcases Option.isSome_iff_exists.mp (expired.present key member) with ⟨record, found⟩
      refine ⟨deadline, ?_, early⟩
      rw [deadlinesOf, found, Option.map_some, dueIs]

end

/-! ### Runs -/

theorem TtlStep.refines (strtod : Strtod) (g : GData) (deadlines : Deadlines) (call : TtlCall)
    (after : GData) (keeps : g.Keeps deadlines) (step : TtlStep strtod g call after) :
    ∃ deadlinesNew, DeadlineStep strtod deadlines call deadlinesNew ∧
      after.Keeps deadlinesNew := by
  rcases keeps with ⟨ents, dict, due, represents, rfl⟩
  exact (TtlCall.exec_spec strtod represents step.1).of_ok step.2

/-- After every interleaving of calls that return: a slot of the heap refers to an
entry of the map whose index is that slot, an entry with an index is referred to by
its slot, the heap is ordered, and the deadline of each entry is that of the
reference.  A further call fails only where a call of the map spins. -/
theorem ttl_runs_refine_deadlines (strtod : Strtod) {trace : List TtlCall} {g : GData}
    (run : Runs (TtlStep strtod) {} trace g) :
    ∃ deadlines : Deadlines, Runs (DeadlineStep strtod) (fun _ => none) trace deadlines ∧
      (∀ i item, g.timers.heap[i]? = some item →
        item.ref ∈ g.db.nodes.map HNode.owner ∧ g.timers.heapIdx item.ref = some i) ∧
      (∀ ent i, g.timers.heapIdx ent = some i →
        ∃ item, g.timers.heap[i]? = some item ∧ item.ref = ent) ∧
      (∀ ent other i, g.timers.heapIdx ent = some i → g.timers.heapIdx other = some i →
        ent = other) ∧
      (∀ i item above, 0 < i → g.timers.heap[i]? = some item →
        g.timers.heap[heapParent i]? = some above → above.val ≤ item.val) ∧
      (∀ ent ∈ g.db.nodes.map HNode.owner,
        deadlines (g.entry ent).key = some (g.timers.deadline ent)) ∧
      (∀ key, (deadlines key).isSome = true →
        ∃ ent ∈ g.db.nodes.map HNode.owner, (g.entry ent).key = key) ∧
      ∀ call : TtlCall, call.Fresh g →
        Meets (· = .spin) (fun _ => True) (call.exec strtod g) := by
  have start : ({} : GData).Keeps fun _ => none := ⟨[], _, _, GData.Represents.empty, rfl⟩
  rcases Runs.simulate (TtlStep.refines strtod) run start with
    ⟨deadlines, reference, ents, dict, due, represents, rfl⟩
  have owners := fun ent => represents.keyed.nodes_perm.mem_iff (a := ent)
  have indexed := represents.indexed
  refine ⟨_, reference, indexed.slots, indexed.listed, ?_, indexed.ordered, ?_, ?_, ?_⟩
  · intro ent other i index otherIndex
    rcases indexed.listed ent i index with ⟨item, found, refIs⟩
    rcases indexed.listed other i otherIndex with ⟨otherItem, otherFound, otherRefIs⟩
    rw [found, Option.some.injEq] at otherFound
    rw [← refIs, ← otherRefIs, otherFound]
  · intro ent member
    have inside := (owners ent).mp member
    rcases represents.recorded ent inside with ⟨record, found, _⟩
    rw [deadlinesOf, found, Option.map_some, represents.dated ent inside]
  · intro key present
    by_contra missing
    have absent := represents.absent key fun ent member keyIs =>
      missing ⟨ent, (owners ent).mpr member, keyIs⟩
    rw [deadlinesOf, absent.1] at present
    cases present
  · intro call fresh
    exact (TtlCall.exec_spec strtod represents fresh).mono fun _ _ => trivial

instance TtlCall.decidableFresh (g : GData) : (call : TtlCall) → Decidable (call.Fresh g)
  | .set alloc _ _ => inferInstanceAs (Decidable (alloc.Unused g))
  | .zadd alloc _ _ _ => inferInstanceAs (Decidable (alloc.Unused g))
  | .del _ => .isTrue trivial
  | .expire _ _ _ => .isTrue trivial
  | .timers _ => .isTrue trivial

def ttlNext (strtod : Strtod) : GData → TtlCall → Option GData :=
  guarded TtlCall.Fresh (TtlCall.exec strtod)

theorem ttlNext_sound (strtod : Strtod) (g : GData) (call : TtlCall) (after : GData)
    (stepped : ttlNext strtod g call = some after) : TtlStep strtod g call after :=
  guarded_sound g call after stepped

def expireAndRemove : List TtlCall :=
  [.set ⟨1, 1⟩ [97] [120], .zadd ⟨2, 1⟩ [98] (ascii "1") [109], .set ⟨3, 2⟩ [99] [],
    .expire 100 [97] (ascii "7"), .expire 200 [98] (ascii "5"), .expire 300 [99] (ascii "3"),
    .expire 400 [98] (ascii "-1"), .timers 5000, .del [98]]

theorem ttl_runs_expire_and_remove :
    ∃ g, Runs (TtlStep strtodOne) {} expireAndRemove g ∧
      ∃ deadlines, Runs (DeadlineStep strtodOne) (fun _ => none) expireAndRemove deadlines ∧
        ∀ ent ∈ g.db.nodes.map HNode.owner,
          deadlines (g.entry ent).key = some (g.timers.deadline ent) := by
  have followed : (follow (ttlNext strtodOne) {} expireAndRemove).isSome = true := by
    decide +kernel
  rcases runs_of_follow (ttlNext_sound strtodOne) followed with ⟨g, run⟩
  rcases ttl_runs_refine_deadlines strtodOne run with
    ⟨deadlines, reference, _, _, _, _, dated, _⟩
  exact ⟨g, run, deadlines, reference, dated⟩

end RedisC
