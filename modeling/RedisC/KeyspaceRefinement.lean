/-
Requests over whole runs refine the reference dictionary.

`reference` gives for a command the dictionary after it and the reply, where
`keys` may list the keys in any order and the slice of a `zquery` is left open.
Every run of requests from the empty database is a run of the reference with the
same replies.
-/

import RedisC.Lib.LabelledRun
import RedisC.KeyspaceHandlers

namespace RedisC

open Fallible LabelledRun

inductive Expected
  | exactly (value : Value)
  | keys
  | any

def Expected.Admits (dict : Dict) : Expected → Value → Prop
  | .exactly value, reply => reply = value
  | .keys, reply => ∃ keys : List Bytes, Lists dict keys ∧ reply = .arr (keys.map .str)
  | .any, _ => True

namespace Reference

def exact (result : Dict × Value) : Dict × Expected := (result.1, .exactly result.2)

def unknown (dict : Dict) : Dict × Expected :=
  (dict, .exactly (.err errUnknown (ascii "Unknown cmd")))

def request (strtod : Strtod) (dict : Dict) : List Bytes → Dict × Expected
  | [word] => if cmdIs word "keys" then (dict, .keys) else unknown dict
  | [word, key] =>
      if cmdIs word "get" then exact (get dict key)
      else if cmdIs word "del" then exact (del dict key)
      else unknown dict
  | [word, key, arg] =>
      if cmdIs word "set" then exact (set dict key arg)
      else if cmdIs word "zrem" then exact (zrem dict key arg)
      else if cmdIs word "zscore" then exact (zscore dict key arg)
      else unknown dict
  | [word, key, score, name] =>
      if cmdIs word "zadd" then exact (zadd strtod dict key score name) else unknown dict
  | [word, _, _, _, _, _] =>
      if cmdIs word "zquery" then (dict, .any) else unknown dict
  | _ => unknown dict

end Reference

/-- Why a request may fail to return: a call of the map spins, a value is too long for
the assertion in `do_get`, or the counts of the tree of a sorted set have wrapped. -/
inductive Excused (dict : Dict) : List Bytes → Fault → Prop
  | spin (cmd : List Bytes) : Excused dict cmd .spin
  | longValue {word key : Bytes} {record : Record} (isGet : cmdIs word "get" = true)
      (found : dict key = some record) (long : kMaxMsg < record.val.length) :
      Excused dict [word, key] (.assertion .doGet)
  | hugeSet {word key score name offset limit : Bytes} {record : Record}
      (isZquery : cmdIs word "zquery" = true) (found : dict key = some record)
      (huge : record.Huge) (fault : Fault) :
      Excused dict [word, key, score, name, offset, limit] fault

def Follows (expected : Dict × Expected) (dict : Dict) (result : GData × Bytes) : Prop :=
  ∃ value due, expected.2.Admits dict value ∧ Replies expected.1 due [] value result

/-- The deadlines after a request: `del` is the only one that touches them. -/
def dueRequest (due : Bytes → Option UInt64) : List Bytes → Bytes → Option UInt64
  | [word, key] =>
      if cmdIs word "get" then due
      else if cmdIs word "del" then Function.update due key none
      else due
  | _ => due

def FollowsWith (expected : Dict × Expected) (dict : Dict) (due : Bytes → Option UInt64)
    (result : GData × Bytes) : Prop :=
  ∃ value, expected.2.Admits dict value ∧ Replies expected.1 due [] value result

section

variable {g : GData} {ents : List Ptr} {dict : Dict} {due : Bytes → Option UInt64}
variable {cmd : List Bytes} {run : Except Fault (GData × Bytes)}

private theorem follows_exact {dueNew : Bytes → Option UInt64} {result : Dict × Value}
    (met : Meets (· = .spin) (Replies result.1 dueNew [] result.2) run) :
    Meets (Excused dict cmd) (FollowsWith (Reference.exact result) dict dueNew) run := by
  apply (met.mono _).widen
  · intro fault spun
    rw [spun]
    exact .spin cmd
  · intro after replies
    exact ⟨result.2, rfl, replies⟩

private theorem follows_unknown (represents : g.Represents ents dict due) :
    Meets (Excused dict cmd) (FollowsWith (Reference.unknown dict) dict due)
      (.ok (g, outErr [] errUnknown "Unknown cmd")) :=
  ⟨_, rfl, ⟨ents, represents⟩, outErr_eq [] errUnknown "Unknown cmd"⟩

theorem doRequest_keeps_due (strtod : Strtod) (represents : g.Represents ents dict due)
    {alloc : Alloc} (fresh : alloc.Fresh g.entry ents) (cmd : List Bytes) :
    Meets (Excused dict cmd)
      (FollowsWith (Reference.request strtod dict cmd) dict (dueRequest due cmd))
      (doRequest strtod g alloc cmd []) := by
  match cmd with
  | [] => exact follows_unknown represents
  | [word] =>
      rw [doRequest, Reference.request]
      split
      · apply ((doKeys_spec represents []).mono _).widen fun _ => False.elim
        intro result listed
        rcases listed with ⟨keys, lists, replies⟩
        exact ⟨_, ⟨keys, lists, rfl⟩, replies⟩
      · exact follows_unknown represents
  | [word, key] =>
      rw [doRequest, Reference.request, dueRequest]
      split
      · rename_i isGet
        apply ((doGet_spec represents key []).mono _).widen
        · intro fault stopped
          rcases stopped with spun | ⟨faultIs, record, found, long⟩
          · rw [spun]
            exact .spin _
          · rw [faultIs]
            exact .longValue isGet found long
        · intro result replies
          exact ⟨_, rfl, replies⟩
      · split
        · exact follows_exact (doDel_spec represents key [])
        · exact follows_unknown represents
  | [word, key, arg] =>
      rw [doRequest, Reference.request]
      split
      · exact follows_exact (doSet_spec represents fresh key arg [])
      · split
        · exact follows_exact (doZrem_spec represents key arg [])
        · split
          · exact follows_exact (doZscore_spec represents key arg [])
          · exact follows_unknown represents
  | [word, key, score, name] =>
      rw [doRequest, Reference.request]
      split
      · exact follows_exact (doZadd_spec strtod represents fresh key score name [])
      · exact follows_unknown represents
  | [word, key, score, name, offset] => exact follows_unknown represents
  | [word, key, score, name, offset, limit] =>
      rw [doRequest, Reference.request]
      split
      · rename_i isZquery
        apply ((doZquery_spec strtod represents key score name offset limit).mono _).widen
        · intro fault stopped
          rcases stopped with spun | ⟨record, found, huge⟩
          · rw [spun]
            exact .spin _
          · exact .hugeSet isZquery found huge fault
        · intro result replied
          rcases replied with ⟨value, replies⟩
          exact ⟨value, trivial, replies⟩
      · exact follows_unknown represents
  | _ :: _ :: _ :: _ :: _ :: _ :: _ :: _ => exact follows_unknown represents

theorem doRequest_spec (strtod : Strtod) (represents : g.Represents ents dict due)
    {alloc : Alloc} (fresh : alloc.Fresh g.entry ents) (cmd : List Bytes) :
    Meets (Excused dict cmd) (Follows (Reference.request strtod dict cmd) dict)
      (doRequest strtod g alloc cmd []) := by
  apply (doRequest_keeps_due strtod represents fresh cmd).mono
  intro result follows
  obtain ⟨value, admitted, replies⟩ := follows
  exact ⟨value, dueRequest due cmd, admitted, replies⟩

end

/-! ### Runs -/

structure Request where
  alloc : Alloc
  cmd : List Bytes
  reply : Bytes

/-- `alloc` has addresses that nothing in the database has. -/
def Alloc.Unused (alloc : Alloc) (g : GData) : Prop :=
  alloc.Fresh g.entry (g.db.nodes.map HNode.owner)

theorem Alloc.Unused.fresh {alloc : Alloc} {g : GData} {ents : List Ptr} {dict : Dict}
    {due : Bytes → Option UInt64} (unused : alloc.Unused g)
    (represents : g.Represents ents dict due) : alloc.Fresh g.entry ents := by
  have owners := fun ent => represents.keyed.nodes_perm.mem_iff (a := ent)
  constructor
  · intro member
    exact unused.newEntry ((owners _).mpr member)
  · intro ent member
    exact unused.newZnode ent ((owners ent).mpr member)

def RequestStep (strtod : Strtod) (g : GData) (request : Request) (after : GData) : Prop :=
  request.alloc.Unused g ∧
    doRequest strtod g request.alloc request.cmd [] = .ok (after, request.reply)

def ReferenceStep (strtod : Strtod) (dict : Dict) (request : Request) (after : Dict) : Prop :=
  ∃ value, request.reply = value.encode ∧
    (Reference.request strtod dict request.cmd).2.Admits dict value ∧
    after = (Reference.request strtod dict request.cmd).1

def GData.Holds (g : GData) (dict : Dict) : Prop := ∃ ents due, g.Represents ents dict due

theorem RequestStep.refines (strtod : Strtod) (g : GData) (dict : Dict) (request : Request)
    (after : GData) (holds : g.Holds dict) (step : RequestStep strtod g request after) :
    ∃ dictNew, ReferenceStep strtod dict request dictNew ∧ after.Holds dictNew := by
  rcases holds with ⟨ents, due, represents⟩
  rcases step with ⟨unused, returned⟩
  rcases (doRequest_spec strtod represents (unused.fresh represents) request.cmd).of_ok returned
    with ⟨value, dueNew, admitted, ⟨entsNew, afterRepresents⟩, written⟩
  exact ⟨_, ⟨value, written, admitted, rfl⟩, entsNew, dueNew, afterRepresents⟩

/-- Requests from the empty database are answered as from a dictionary of records, and
a further request returns such an answer unless it is excused. -/
theorem requests_refine_reference_dictionary (strtod : Strtod) {trace : List Request}
    {g : GData} (run : Runs (RequestStep strtod) {} trace g) :
    ∃ dict : Dict, Runs (ReferenceStep strtod) (fun _ => none) trace dict ∧
      ∀ alloc cmd, Alloc.Unused alloc g →
        Meets (Excused dict cmd)
          (fun result : GData × Bytes => ∃ value, result.2 = value.encode ∧
            (Reference.request strtod dict cmd).2.Admits dict value)
          (doRequest strtod g alloc cmd []) := by
  have start : ({} : GData).Holds fun _ => none := ⟨[], _, GData.Represents.empty⟩
  rcases Runs.simulate (RequestStep.refines strtod) run start with
    ⟨dict, reference, ents, due, represents⟩
  refine ⟨dict, reference, ?_⟩
  intro alloc cmd unused
  apply (doRequest_spec strtod represents (unused.fresh represents) cmd).mono
  intro result follows
  rcases follows with ⟨value, _, admitted, replies⟩
  exact ⟨value, replies.written, admitted⟩

-- Over the nodes and not over their addresses, of which there are finitely many.
instance Alloc.decidableUnused (alloc : Alloc) (g : GData) : Decidable (alloc.Unused g) :=
  decidable_of_iff
    (alloc.entry ∉ g.db.nodes.map HNode.owner ∧
      ∀ other ∈ g.db.nodes, ∀ zset ∈ (g.entry other.owner).zset,
        ∀ node ∈ zset.hmap.nodes, node.owner ≠ alloc.znode)
    ⟨fun both => ⟨both.1, List.forall_mem_map.mpr both.2⟩,
      fun fresh => ⟨fresh.newEntry, List.forall_mem_map.mp fresh.newZnode⟩⟩

def strtodOne (text : Bytes) : Double × Nat :=
  if text = ascii "1" then (⟨0x3FF0000000000000⟩, 1) else (⟨0⟩, 0)

def setZaddDel : List Request :=
  [⟨⟨1, 1⟩, [ascii "set", [97], [98]], outNil []⟩,
    ⟨⟨2, 1⟩, [ascii "zadd", [122], ascii "1", [109]], outInt [] 1⟩,
    ⟨⟨3, 2⟩, [ascii "zadd", [97], ascii "1", [109]], outErr [] errType "expecting zset"⟩,
    ⟨⟨3, 2⟩, [ascii "zadd", [122], ascii "x", [109]], outErr [] errArg "expected fp number"⟩,
    ⟨⟨3, 2⟩, [ascii "zscore", [122], [109]], outDouble [] ⟨0x3FF0000000000000⟩⟩,
    ⟨⟨3, 2⟩, [ascii "del", [122]], outInt [] 1⟩,
    ⟨⟨3, 2⟩, [ascii "GET", [97]], outStr [] [98]⟩,
    ⟨⟨3, 2⟩, [ascii "keys"], outStr (outArr [] 1) [97]⟩]

theorem requests_refine_set_zadd_del :
    ∃ g, Runs (RequestStep strtodOne) {} setZaddDel g ∧
      ∃ dict, Runs (ReferenceStep strtodOne) (fun _ => none) setZaddDel dict := by
  have followed :
      (follow (answered (fun g (request : Request) => request.alloc.Unused g) Request.reply
        (fun g request => doRequest strtodOne g request.alloc request.cmd []))
        {} setZaddDel).isSome = true := by
    decide +kernel
  rcases runs_of_follow answered_sound followed with ⟨g, run⟩
  rcases requests_refine_reference_dictionary strtodOne run with ⟨dict, reference, _⟩
  exact ⟨g, run, dict, reference⟩

end RedisC
