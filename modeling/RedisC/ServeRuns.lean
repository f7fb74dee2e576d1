/-
Requests from the buffers of the connections, over whole runs.

`try_one_request` decides about a reply that is too big after the command has been
executed.  Only commands that change nothing can write such a reply, so an error
in the write buffer means that the data is as it was.  The data is read off the
state by `GData.view`: nodes may have moved between the tables of a map, and that
is not seen there.
-/

import RedisC.ReplyRuns

namespace RedisC

open Fallible LabelledRun

/-! ### The data -/

def HMap.ownerOf {α : Type} (hmap : HMap α) (wanted : α → Bool) : Option α :=
  (hmap.nodes.find? fun node => wanted node.owner).map HNode.owner

def Entry.members (entry : Entry) (name : Bytes) : Option Score :=
  match entry.type, entry.zset with
  | .zset, some zset =>
      (zset.hmap.ownerOf fun node => (zset.znode node).name == name).map fun node =>
        (zset.znode node).score
  | _, _ => none

/-- What there is to know about a key. -/
structure KeyView where
  type : EntryType
  val : Bytes
  members : Bytes → Option Score
  deadline : Option UInt64

def GData.view (g : GData) (key : Bytes) : Option KeyView :=
  (g.db.ownerOf fun ent => (g.entry ent).key == key).map fun ent =>
    { type := (g.entry ent).type
      val := (g.entry ent).val
      members := (g.entry ent).members
      deadline := g.timers.deadline ent }

def Record.view (record : Record) (deadline : Option UInt64) : KeyView where
  type := record.type
  val := record.val
  members := if record.type = .zset then record.members else fun _ => none
  deadline := deadline

theorem Keyed.ownerOf_sought {α κ : Type} {key : α → κ} {hash : κ → UInt64} {hmap : HMap α}
    {owners : List α} [BEq κ] [LawfulBEq κ] (keyed : Keyed key hash hmap owners) (name : κ) :
    Sought owners (fun owner => key owner = name)
      (hmap.ownerOf fun owner => key owner == name) := by
  unfold HMap.ownerOf
  cases found : hmap.nodes.find? fun node => key node.owner == name with
  | none =>
      intro owner member same
      obtain ⟨node, inMap, rfl⟩ := keyed.exists_node member
      have missed := List.find?_eq_none.mp found node inMap
      rw [beq_iff_eq] at missed
      exact missed same
  | some node =>
      have named := List.find?_some found
      rw [beq_iff_eq] at named
      exact ⟨keyed.owner_mem (List.mem_of_find?_eq_some found), named⟩

theorem Entry.Is.members_eq {entry : Entry} {record : Record} (is : entry.Is record) :
    entry.members = if record.type = .zset then record.members else fun _ => none := by
  funext name
  unfold Entry.members
  rw [is.type]
  cases type : record.type with
  | str => rfl
  | zset =>
      obtain ⟨zset, nodes, zsetIs, represents⟩ := is.zset type
      rw [zsetIs]
      exact (represents.scores.sought (represents.holds.keyed.ownerOf_sought name)).symm

theorem GData.Represents.view_eq {g : GData} {ents : List Ptr} {dict : Dict}
    {due : Bytes → Option UInt64} (represents : g.Represents ents dict due) (key : Bytes) :
    g.view key = (dict key).map fun record => record.view (due key) := by
  have sought := represents.keyed.ownerOf_sought key
  unfold GData.view
  cases found : g.db.ownerOf fun ent => (g.entry ent).key == key with
  | none =>
      rw [found] at sought
      rw [(represents.absent key sought).1]
      rfl
  | some ent =>
      rw [found] at sought
      obtain ⟨member, keyIs⟩ := sought
      obtain ⟨record, recorded, is⟩ := represents.recorded ent member
      have dated := represents.dated ent member
      rw [keyIs] at recorded dated
      rw [recorded, Option.map_some, Option.map_some, Record.view, is.type, is.val,
        is.members_eq, dated]

/-! ### Errors -/

def ErrorPacked (out : Bytes) : Prop :=
  ∃ code msg, packReply out = (Value.err code msg).encode

theorem ErrorPacked.head {out : Bytes} (packed : ErrorPacked out)
    (short : 4 + out.length ≤ kMaxMsg) : out.head? = some serErr := by
  obtain ⟨code, msg, same⟩ := packed
  rw [packReply, if_neg (Nat.not_lt.mpr short)] at same
  rw [same]
  rfl

theorem ErrorPacked.ne_nil {value : Value} (packed : ErrorPacked value.encode) :
    value ≠ .nil := by
  intro same
  subst same
  have head := packed.head (by decide)
  cases head

theorem ErrorPacked.ne_int {value : Value} (packed : ErrorPacked value.encode) (val : Int64) :
    value ≠ .int val := by
  intro same
  subst same
  have short : 4 + (Value.int val).encode.length ≤ kMaxMsg := by
    rw [Value.encode, List.length_cons, length_bytesU64]
    decide
  have head := packed.head short
  cases head

section

variable {strtod : Strtod} {dict : Dict} {value : Value}

private theorem reference_set_answer (dict : Dict) (key val : Bytes) :
    (Reference.set dict key val).2 = .nil := by
  unfold Reference.set
  split
  · rfl
  · rfl

private theorem reference_del_answer (dict : Dict) (key : Bytes) :
    ∃ val, (Reference.del dict key).2 = .int val := by
  unfold Reference.del
  split
  · exact ⟨0, rfl⟩
  · exact ⟨1, rfl⟩

private theorem reference_zadd_answer (strtod : Strtod) (dict : Dict) (key score name : Bytes) :
    (Reference.zadd strtod dict key score name).1 = dict ∨
      ∃ val, (Reference.zadd strtod dict key score name).2 = .int val := by
  unfold Reference.zadd
  split
  · exact .inl rfl
  · split
    · exact .inr ⟨1, rfl⟩
    · split
      · exact .inl rfl
      · exact .inr ⟨_, rfl⟩

private theorem reference_zrem_answer (dict : Dict) (key name : Bytes) :
    (Reference.zrem dict key name).1 = dict ∨
      ∃ val, (Reference.zrem dict key name).2 = .int val := by
  unfold Reference.zrem
  split
  · exact .inl rfl
  · split
    · exact .inl rfl
    · exact .inr ⟨_, rfl⟩

/-- A request whose reply is packed as an error has changed neither the dictionary nor
the deadlines. -/
private theorem reference_error_same {cmd : List Bytes} (due : Bytes → Option UInt64)
    (admitted : (Reference.request strtod dict cmd).2.Admits dict value)
    (packed : ErrorPacked value.encode) :
    (Reference.request strtod dict cmd).1 = dict ∧ dueRequest due cmd = due := by
  match cmd with
  | [] => exact ⟨rfl, rfl⟩
  | [word] =>
      rw [Reference.request]
      split
      · exact ⟨rfl, rfl⟩
      · exact ⟨rfl, rfl⟩
  | [word, key] =>
      rw [Reference.request] at admitted ⊢
      rw [dueRequest]
      split
      · exact ⟨reference_get_same dict key, rfl⟩
      · rename_i notGet
        split
        · rename_i isDel
          rw [if_neg notGet, if_pos isDel] at admitted
          obtain ⟨val, answer⟩ := reference_del_answer dict key
          exact absurd (admitted.trans answer) (packed.ne_int val)
        · exact ⟨rfl, rfl⟩
  | [word, key, arg] =>
      rw [Reference.request] at admitted ⊢
      refine ⟨?_, rfl⟩
      split
      · rename_i isSet
        rw [if_pos isSet] at admitted
        exact absurd (admitted.trans (reference_set_answer dict key arg)) packed.ne_nil
      · rename_i notSet
        split
        · rename_i isZrem
          rw [if_neg notSet, if_pos isZrem] at admitted
          rcases reference_zrem_answer dict key arg with same | ⟨val, answer⟩
          · exact same
          · exact absurd (admitted.trans answer) (packed.ne_int val)
        · split
          · exact reference_zscore_same dict key arg
          · rfl
  | [word, key, score, name] =>
      rw [Reference.request] at admitted ⊢
      refine ⟨?_, rfl⟩
      split
      · rename_i isZadd
        rw [if_pos isZadd] at admitted
        rcases reference_zadd_answer strtod dict key score name with same | ⟨val, answer⟩
        · exact same
        · exact absurd (admitted.trans answer) (packed.ne_int val)
      · rfl
  | [word, key, score, name, offset] => exact ⟨rfl, rfl⟩
  | [word, key, score, name, offset, limit] =>
      rw [Reference.request]
      split
      · exact ⟨rfl, rfl⟩
      · exact ⟨rfl, rfl⟩
  | _ :: _ :: _ :: _ :: _ :: _ :: _ :: _ => exact ⟨rfl, rfl⟩

end

/-! ### One call of `try_one_request` -/

section

variable {σ : Type} {w after : World σ} {doRequest : σ → List Bytes → Except Fault (σ × Bytes)}

structure Flushes (before after : World σ) : Prop where
  db : after.db = before.db
  past : before.past <+: after.past

theorem Flushes.trans {before middle after : World σ} (first : Flushes before middle)
    (second : Flushes middle after) : Flushes before after :=
  ⟨second.db.trans first.db, first.past.trans second.past⟩

private theorem flushed_flushes (w : World σ) (n : Nat) :
    Meets (fun _ => True) (fun result => Flushes w result.2) (flushed w n) := by
  unfold flushed
  simp only
  split
  · split
    · exact ⟨rfl, List.prefix_refl _⟩
    · exact ⟨rfl, List.prefix_refl _⟩
  · trivial

private theorem tryFlushBuffer_flushes (w : World σ) :
    Meets (fun _ => True) (fun result => Flushes w result.2) (tryFlushBuffer w) := by
  unfold tryFlushBuffer
  split
  · exact ⟨rfl, List.prefix_refl _⟩
  · rename_i n writes wrote
    apply (flushed_flushes { w with writes := writes } n).mono
    intro result flushes
    exact ⟨flushes.db, flushes.past⟩
  · exact ⟨rfl, List.prefix_refl _⟩

private theorem stateResLoop_flushes (fuel : Nat) (w : World σ) :
    Meets (fun _ => True) (Flushes w) (stateResLoop fuel w) := by
  induction fuel generalizing w with
  | zero => trivial
  | succ fuel ih =>
      rw [stateResLoop]
      apply (tryFlushBuffer_flushes w).bind
      intro result flushes
      obtain ⟨more, middle⟩ := result
      have observed : Flushes w (observe .flushed middle) :=
        flushes.trans ⟨rfl, List.prefix_append _ _⟩
      cases more with
      | false => exact observed
      | true =>
          apply (ih (observe .flushed middle)).mono
          intro last later
          exact observed.trans later

private theorem frame_inj {left right : Bytes} (same : frame left = frame right) :
    left = right := by
  have dropped : ∀ body, (frame body).drop 4 = body :=
    fun body => List.drop_left' (length_bytesU32 _)
  have bodies := congrArg (List.drop 4) same
  rw [dropped, dropped] at bodies
  exact bodies

/-- What `try_one_request` can do: nothing to the database, or one request of which the
reply is packed. -/
inductive Tried (doRequest : σ → List Bytes → Except Fault (σ × Bytes)) (w after : World σ) : Prop
  | idle (db : after.db = w.db)
  | served {body : Bytes} {cmd : List Bytes} {out : Bytes} (conn : Conn)
      (short : body.length ≤ kMaxMsg) (parsed : parseReq body = .ok (0, cmd))
      (returned : doRequest w.db cmd = .ok (after.db, out))
      (packed : (.packed, conn) ∈ after.past.drop w.past.length)
      (wbuf : conn.wbuf = frame (packReply out))

private theorem execute_tried {body : Bytes} {more : Bool} (short : body.length ≤ kMaxMsg)
    (returned : execute doRequest w body = .ok (more, after)) : Tried doRequest w after := by
  unfold execute at returned
  obtain ⟨⟨code, cmd⟩, parsed, rest⟩ := bind_eq_ok returned
  by_cases accepted : code = 0
  · subst accepted
    obtain ⟨⟨db, out⟩, executed, rest⟩ := bind_eq_ok rest
    obtain ⟨last, responded, final⟩ := bind_eq_ok rest
    cases final
    have flushes := (stateResLoop_flushes _ _).of_ok responded
    obtain ⟨later, past⟩ := flushes.past
    have dbIs : after.db = db := flushes.db
    have pastIs : after.past = w.past ++ ((.pack, w.conn) ::
        (.packed, (pack w body.length out).conn) :: later) := by
      rw [← past]
      change ((w.past ++ [(.pack, w.conn)]) ++
        [(.packed, (pack w body.length out).conn)]) ++ later = _
      simp only [List.append_assoc, List.cons_append, List.nil_append]
    refine .served (pack w body.length out).conn short parsed (dbIs ▸ executed) ?_ rfl
    rw [pastIs, List.drop_left]
    exact List.mem_cons_of_mem _ List.mem_cons_self
  · simp only [ne_eq, accepted, not_false_eq_true, if_true] at rest
    cases rest
    exact .idle rfl

private theorem tryOneRequest_tried {more : Bool}
    (returned : tryOneRequest doRequest w = .ok (more, after)) : Tried doRequest w after := by
  unfold tryOneRequest at returned
  split at returned
  · cases returned
    exact .idle rfl
  · obtain ⟨len, _, rest⟩ := bind_eq_ok returned
    split at rest
    · cases rest
      exact .idle rfl
    · rename_i notLong
      split at rest
      · cases rest
        exact .idle rfl
      · obtain ⟨body, loaded, executed⟩ := bind_eq_ok rest
        apply execute_tried _ executed
        unfold loadBytes at loaded
        split at loaded
        · cases loaded
          exact (List.length_take_le _ _).trans (Nat.not_lt.mp notLong)
        · cases loaded

end

/-! ### Runs -/

def serveWith (strtod : Strtod) (alloc : Alloc) (g : GData) (cmd : List Bytes) :
    Except Fault (GData × Bytes) :=
  doRequest strtod g alloc cmd []

/-- What may happen to the database: `try_one_request` on a connection with anything in
its buffers, `do_expire`, or the timers. -/
inductive ServeCall
  | request (alloc : Alloc) (conn : Conn) (writes : List WriteResult)
  | expire (now : UInt64) (key ttlMs : Bytes)
  | timers (now : UInt64)

def ServeCall.exec (strtod : Strtod) (g : GData) : ServeCall → Except Fault GData
  | .request alloc conn writes => do
      let (_, w) ← tryOneRequest (serveWith strtod alloc)
        { db := g, conn := conn, writes := writes }
      pure w.db
  | .expire now key ttlMs => do
      let (g, _) ← doExpire g now key ttlMs []
      pure g
  | .timers now => processTtlTimers g now

def ServeCall.Fresh (g : GData) : ServeCall → Prop
  | .request alloc _ _ => alloc.Unused g
  | _ => True

def ServeStep (strtod : Strtod) (g : GData) (call : ServeCall) (after : GData) : Prop :=
  call.Fresh g ∧ call.exec strtod g = .ok after

/-- A step of the server is a step of the database, if it does anything. -/
theorem ServeStep.dbStep {strtod : Strtod} {g after : GData} {call : ServeCall}
    (step : ServeStep strtod g call after) :
    after = g ∨ ∃ dbCall, DbStep strtod g dbCall after := by
  obtain ⟨fresh, executed⟩ := step
  cases call with
  | request alloc conn writes =>
      obtain ⟨⟨more, last⟩, returned, final⟩ := bind_eq_ok executed
      cases final
      cases tryOneRequest_tried returned with
      | idle db => exact .inl db
      | @served body cmd out _ short parsed answered _ _ =>
          refine .inr ⟨.request alloc body, ⟨fresh, short⟩, ?_⟩
          change (parseReq body >>= _) = _
          rw [parsed, ok_bind]
          change (serveWith strtod alloc g cmd >>= _) = _
          rw [answered]
          rfl
  | expire now key ttlMs => exact .inr ⟨.expire now key ttlMs, trivial, executed⟩
  | timers now => exact .inr ⟨.timers now, trivial, executed⟩

theorem serve_runs_each {strtod : Strtod} {holds : Record → Prop} {trace : List ServeCall}
    {g : GData} (kept : KeptByRequests strtod holds) (run : Runs (ServeStep strtod) {} trace g) :
    g.Each holds := by
  refine run.invariant ?_ (GData.each_empty holds)
  intro before call after each step
  rcases step.dbStep with same | ⟨dbCall, dbStep⟩
  · rw [same]
    exact each
  · exact dbStep.each kept before dbCall after each

private theorem serve_runs_valid {strtod : Strtod} {trace : List ServeCall} {g : GData}
    (run : Runs (ServeStep strtod) {} trace g) :
    ∃ ents dict due, g.Represents ents dict due := by
  have trivially : KeptByRequests strtod fun _ => True := fun _ _ _ _ _ _ _ _ _ => trivial
  obtain ⟨ents, dict, due, represents, _⟩ := serve_runs_each trivially run
  exact ⟨ents, dict, due, represents⟩

/-- A frame that is rejected, and a request whose reply is packed as an error value, leave
every key with its type, its value, its members and its deadline. -/
theorem errors_change_no_data (strtod : Strtod) {trace : List ServeCall} {w after : World GData}
    (run : Runs (ServeStep strtod) {} trace w.db) {alloc : Alloc} (unused : alloc.Unused w.db)
    {more : Bool} (returned : tryOneRequest (serveWith strtod alloc) w = .ok (more, after))
    (errors : ∀ conn, (.packed, conn) ∈ after.past.drop w.past.length →
      ∃ code msg, conn.wbuf = frame (Value.err code msg).encode) :
    after.db.view = w.db.view := by
  cases tryOneRequest_tried returned with
  | idle db => rw [db]
  | @served body cmd out conn _ _ answered packed wbuf =>
      obtain ⟨ents, dict, due, represents⟩ := serve_runs_valid run
      obtain ⟨code, msg, isError⟩ := errors conn packed
      have replied : ErrorPacked out := ⟨code, msg, frame_inj (wbuf.symm.trans isError)⟩
      obtain ⟨value, admitted, ⟨entsNew, afterRepresents⟩, written⟩ :=
        (doRequest_keeps_due strtod represents (unused.fresh represents) cmd).of_ok answered
      have written : out = value.encode := written
      rw [written] at replied
      obtain ⟨sameDict, sameDue⟩ := reference_error_same due admitted replied
      rw [sameDict, sameDue] at afterRepresents
      funext key
      rw [afterRepresents.view_eq, represents.view_eq]

instance ServeCall.decidableFresh (g : GData) : (call : ServeCall) → Decidable (call.Fresh g)
  | .request alloc _ _ => inferInstanceAs (Decidable (alloc.Unused g))
  | .expire _ _ _ => .isTrue trivial
  | .timers _ => .isTrue trivial

def serveNext (strtod : Strtod) : GData → ServeCall → Option GData :=
  guarded ServeCall.Fresh (ServeCall.exec strtod)

theorem serveNext_sound (strtod : Strtod) (g : GData) (call : ServeCall) (after : GData)
    (stepped : serveNext strtod g call = some after) : ServeStep strtod g call after :=
  guarded_sound g call after stepped

def storeString : List ServeCall :=
  [.request ⟨1, 1⟩ { rbuf := frame (encodeReq [ascii "set", [97], [98]]) } [],
    .expire 100 [97] (ascii "7")]

def zaddString : Conn where
  rbuf := frame (encodeReq [ascii "zadd", [97], ascii "1", [109]])

theorem errors_change_no_data_zadd_string :
    ∃ g after, Runs (ServeStep strtodOne) {} storeString g ∧
      tryOneRequest (serveWith strtodOne ⟨2, 1⟩) { db := g, conn := zaddString } =
        .ok (false, after) ∧
      after.calls = [([ascii "zadd", [97], ascii "1", [109]],
        (Value.err errType (ascii "expecting zset")).encode)] ∧
      after.db.view = g.view := by
  have followed : ((follow (serveNext strtodOne) {} storeString).any fun g =>
      decide (Alloc.Unused ⟨2, 1⟩ g) &&
        (tryOneRequest (serveWith strtodOne ⟨2, 1⟩)
          { db := g, conn := zaddString }).toOption.any fun result =>
            decide (result.1 = false) &&
              decide (result.2.calls = [([ascii "zadd", [97], ascii "1", [109]],
                (Value.err errType (ascii "expecting zset")).encode)]) &&
              result.2.past.all fun point => decide (point.1 = .packed →
                point.2.wbuf = frame (Value.err errType (ascii "expecting zset")).encode)) =
        true := by
    decide +kernel
  obtain ⟨g, gIs, both⟩ := (Option.any_eq_true _ _).mp followed
  obtain ⟨unused, serves⟩ := Bool.and_eq_true_iff.mp both
  obtain ⟨⟨more, after⟩, resultIs, rest⟩ := (Option.any_eq_true _ _).mp serves
  obtain ⟨first, points⟩ := Bool.and_eq_true_iff.mp rest
  obtain ⟨stops, callsAre⟩ := Bool.and_eq_true_iff.mp first
  have run := runs_of_follow_eq (serveNext_sound strtodOne) gIs
  have returned := eq_ok_of_toOption resultIs
  rw [show more = false from of_decide_eq_true stops] at returned
  refine ⟨g, after, run, returned, of_decide_eq_true callsAre, ?_⟩
  refine @errors_change_no_data strtodOne storeString { db := g, conn := zaddString } after run
    ⟨2, 1⟩ (of_decide_eq_true unused) false returned ?_
  intro conn packed
  have all := List.all_eq_true.mp points (.packed, conn) packed
  exact ⟨errType, _, of_decide_eq_true all rfl⟩

end RedisC
