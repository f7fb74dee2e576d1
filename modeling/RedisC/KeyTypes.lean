/-
The type of a key, as the replies show it.

`do_zadd` and `expect_zset` consult the tag of an entry and `do_get` does not.  A key
that no `zadd` has created answers as a string only.  A key that one has created
answers as a sorted set and, with the empty value of its entry, as a string.
-/

import RedisC.KeyspaceOrigin

namespace RedisC

open Fallible LabelledRun

/-- `get` replies with a string. -/
def AnswersString (g : GData) (key : Bytes) : Prop :=
  ∃ after text, doGet g key [] = .ok (after, (Value.str text).encode)

/-- The commands of the sorted sets, on `key`. -/
inductive ZsetCommand (key : Bytes) : List Bytes → Prop
  | zadd {word score name : Bytes} (is : cmdIs word "zadd" = true) :
      ZsetCommand key [word, key, score, name]
  | zrem {word name : Bytes} (is : cmdIs word "zrem" = true) : ZsetCommand key [word, key, name]
  | zscore {word name : Bytes} (is : cmdIs word "zscore" = true) :
      ZsetCommand key [word, key, name]
  | zquery {word score name offset limit : Bytes} (is : cmdIs word "zquery" = true) :
      ZsetCommand key [word, key, score, name, offset, limit]

/-- Some command of the sorted sets on `key` replies with something that is not an error. -/
def OperatesOnZset (strtod : Strtod) (g : GData) (key : Bytes) : Prop :=
  ∃ alloc cmd after out, Alloc.Unused alloc g ∧ ZsetCommand key cmd ∧
    doRequest strtod g alloc cmd [] = .ok (after, out) ∧ out.head? ≠ some serErr

def OneType (strtod : Strtod) (g : GData) (key : Bytes) : Prop :=
  ¬(AnswersString g key ∧ OperatesOnZset strtod g key)

/-- A `zadd` with a number for the score, on a key that is not there. -/
def KeyCall.CreatesZset (strtod : Strtod) (g : GData) (key : Bytes) : KeyCall → Prop
  | .request _ [word, other, score, _] =>
      other = key ∧ cmdIs word "zadd" = true ∧ (str2double strtod score).isSome = true ∧
        ¬g.HasKey key
  | _ => False

/-! ### One state -/

section

variable {strtod : Strtod} {g : GData} {ents : List Ptr} {dict : Dict}
variable {due : Bytes → Option UInt64} {key : Bytes} {record : Record}

private theorem not_answersString (represents : g.Represents ents dict due)
    (absent : dict key = none) :
    ¬AnswersString g key := by
  intro answers
  obtain ⟨after, text, returned⟩ := answers
  have replies := ((doGet_spec represents key []).of_ok returned).written
  rw [Reference.get, absent] at replies
  cases replies

private theorem answersString (represents : g.Represents ents dict due)
    (found : dict key = some record)
    {result : GData × Bytes} (returned : doGet g key [] = .ok result) : AnswersString g key := by
  have replies := ((doGet_spec represents key []).of_ok returned).written
  rw [Reference.get, found] at replies
  refine ⟨result.1, record.val, ?_⟩
  rw [returned, ← show result.2 = (Value.str record.val).encode from replies]

/-- On a string, `zquery` replies with an error about an argument or about the type. -/
private theorem doZquery_string (represents : g.Represents ents dict due)
    (found : dict key = some record) (type : record.type = .str)
    (score name offset limit : Bytes) :
    Meets (fun _ => True) (fun result : GData × Bytes => result.2.head? = some serErr)
      (doZquery strtod g key score name offset limit []) := by
  unfold doZquery
  split
  · rfl
  · rfl
  · rfl
  · apply represents.expect_bind key [] trivial
    · intro after _ absent
      rw [found] at absent
      cases absent
    · intro after other _ _ _
      rfl
    · intro after ent other zset nodes _ _ _ otherFound otherType _ _
      rw [found] at otherFound
      cases otherFound
      rw [type] at otherType
      cases otherType

private theorem cmdIs_other {word : Bytes} {cmd other : String} (is : cmdIs word cmd = true)
    (apart : (ascii cmd).map toLower ≠ (ascii other).map toLower) : ¬cmdIs word other = true := by
  intro isOther
  rw [cmdIs, beq_iff_eq] at is isOther
  exact apart (is.symm.trans isOther)

private theorem doRequest_zrem {word name : Bytes} {alloc : Alloc} (is : cmdIs word "zrem" = true) :
    doRequest strtod g alloc [word, key, name] [] = doZrem g key name [] := by
  rw [doRequest, if_neg (cmdIs_other is (by decide)), if_pos is]

private theorem doRequest_zscore {word name : Bytes} {alloc : Alloc}
    (is : cmdIs word "zscore" = true) :
    doRequest strtod g alloc [word, key, name] [] = doZscore g key name [] := by
  rw [doRequest, if_neg (cmdIs_other is (by decide)), if_neg (cmdIs_other is (by decide)),
    if_pos is]

/-- Every command of the sorted sets on a string replies with an error. -/
private theorem zsetCommand_string (represents : g.Represents ents dict due)
    (found : dict key = some record) (type : record.type = .str) {cmd : List Bytes}
    (command : ZsetCommand key cmd) {alloc : Alloc} (unused : alloc.Unused g)
    {after : GData} {out : Bytes}
    (returned : doRequest strtod g alloc cmd [] = .ok (after, out)) :
    out.head? = some serErr := by
  cases command with
  | @zadd word score name is =>
      rw [doRequest, if_pos is] at returned
      have written := ((doZadd_spec strtod represents (unused.fresh represents) key score name
        []).of_ok returned).written
      rw [show out = _ from written, Reference.zadd]
      split
      · rfl
      · simp only [found, if_pos type]
        rfl
  | @zrem word name is =>
      rw [doRequest_zrem is] at returned
      have written := ((doZrem_spec represents key name []).of_ok returned).written
      rw [show out = _ from written, Reference.zrem, found]
      simp only [if_pos type]
      rfl
  | @zscore word name is =>
      rw [doRequest_zscore is] at returned
      have written := ((doZscore_spec represents key name []).of_ok returned).written
      rw [show out = _ from written, Reference.zscore, found]
      simp only [if_pos type]
      rfl
  | @zquery word score name offset limit is =>
      rw [doRequest, if_pos is] at returned
      exact (doZquery_string represents found type score name offset limit).of_ok returned

private theorem oneType_of_string (represents : g.Represents ents dict due)
    (string : ∀ record, dict key = some record → record.type = .str) : OneType strtod g key := by
  intro both
  obtain ⟨answers, operates⟩ := both
  cases found : dict key with
  | none => exact not_answersString represents found answers
  | some record =>
      obtain ⟨alloc, cmd, after, out, unused, command, returned, noError⟩ := operates
      exact noError (zsetCommand_string represents found (string record found) command unused
        returned)

private theorem not_oneType_of_zset (represents : g.Represents ents dict due)
    (found : dict key = some record) (type : record.type = .zset) {alloc : Alloc}
    (unused : alloc.Unused g) {got : GData × Bytes} (gets : doGet g key [] = .ok got)
    {name : Bytes} {scored : GData × Bytes} (scores : doZscore g key name [] = .ok scored) :
    ¬OneType strtod g key := by
  intro oneType
  apply oneType
  refine ⟨answersString represents found gets, alloc, [ascii "zscore", key, name], scored.1,
    scored.2, unused, .zscore (by decide), ?_, ?_⟩
  · rw [doRequest_zscore (by decide)]
    exact scores
  · have written := ((doZscore_spec represents key name []).of_ok scores).written
    have notString : record.type ≠ .str := by
      rw [type]
      exact fun contrary => by cases contrary
    rw [written, Reference.zscore, found]
    simp only [if_neg notString]
    split
    · exact fun contrary => by cases contrary
    · exact fun contrary => by cases contrary

end

/-! ### Runs -/

/-- The keyspace stands for a dictionary in which `key` is a string, if it is there. -/
def GData.StringKey (g : GData) (key : Bytes) : Prop :=
  ∃ ents dict due, g.Represents ents dict due ∧
    ∀ record, dict key = some record → record.type = .str

def PlainStep (strtod : Strtod) (key : Bytes) (g : GData) (call : KeyCall) (after : GData) :
    Prop :=
  KeyStep strtod g call after ∧ ¬call.CreatesZset strtod g key

theorem PlainStep.stringKey (strtod : Strtod) (key : Bytes) (g : GData) (call : KeyCall)
    (after : GData) (string : g.StringKey key) (step : PlainStep strtod key g call after) :
    after.StringKey key := by
  obtain ⟨ents, dict, due, represents, isString⟩ := string
  obtain ⟨keyStep, plain⟩ := step
  obtain ⟨entsNew, dictNew, dueNew, afterRepresents, effect⟩ := keyStep.effect represents
  refine ⟨entsNew, dictNew, dueNew, afterRepresents, ?_⟩
  intro record found
  rcases effect.origin found with kept | ⟨alloc, cmd, isRequest, origin⟩
  · exact isString record kept
  · subst isRequest
    cases origin with
    | kept _ was => exact isString record was
    | @set _ _ old _ source is =>
        rw [is]
        rcases source with present | created
        · exact isString old present
        · rw [created.2]
    | @zadd _ _ _ _ old isZadd parsed source is =>
        rcases source with present | created
        · exact absurd (isString old present.1) present.2
        · refine absurd ⟨rfl, isZadd, ?_, ?_⟩ plain
          · rw [parsed]
            rfl
          · rw [represents.hasKey_iff, created.1]
            exact fun contrary => by cases contrary
    | @zrem _ _ old _ was type _ => exact absurd (isString old was) type

theorem KeyStep.zset_created {strtod : Strtod} {key : Bytes} {g after : GData} {call : KeyCall}
    (valid : g.Valid) (step : KeyStep strtod g call after)
    (creates : call.CreatesZset strtod g key) :
    ∃ ents dict due record, after.Represents ents dict due ∧ dict key = some record ∧
      record.type = .zset := by
  obtain ⟨ents, dict, due, represents⟩ := valid
  obtain ⟨entsNew, dictNew, dueNew, afterRepresents, effect⟩ := step.effect represents
  unfold KeyCall.CreatesZset at creates
  split at creates
  · rename_i alloc word other scoreText name
    obtain ⟨rfl, isZadd, parses, missing⟩ := creates
    obtain ⟨score, parsed⟩ := Option.isSome_iff_exists.mp parses
    have absent : dict other = none := by
      rw [represents.hasKey_iff] at missing
      exact Option.not_isSome_iff_eq_none.mp missing
    cases effect
    rw [Reference.request, if_pos isZadd, Reference.exact, Reference.zadd, parsed]
      at afterRepresents
    simp only [absent] at afterRepresents
    exact ⟨entsNew, _, _, _, afterRepresents, Function.update_self .., rfl⟩
  · exact creates.elim

/-- As long as no `zadd` creates a sorted set under a key, the key has one type.  Once one
has, it has not: where `get` and `zscore` return, both answer. -/
theorem key_has_one_type_unless_created (strtod : Strtod) (key : Bytes) :
    (∀ trace g, Runs (PlainStep strtod key) {} trace g → OneType strtod g key) ∧
    ∀ trace g call after alloc name got scored, Runs (KeyStep strtod) {} trace g →
      KeyStep strtod g call after → call.CreatesZset strtod g key → Alloc.Unused alloc after →
      doGet after key [] = .ok got → doZscore after key name [] = .ok scored →
      ¬OneType strtod after key := by
  constructor
  · intro trace g run
    have start : ({} : GData).StringKey key :=
      ⟨[], _, _, GData.Represents.empty, fun _ contrary => by cases contrary⟩
    obtain ⟨ents, dict, due, represents, string⟩ :=
      run.invariant (PlainStep.stringKey strtod key) start
    exact oneType_of_string represents string
  · intro trace g call after alloc name got scored run step creates unused gets scores
    obtain ⟨ents, dict, due, record, represents, found, type⟩ :=
      step.zset_created (key_runs_valid run) creates
    exact not_oneType_of_zset represents found type unused gets scores

instance KeyCall.decidableCreatesZset (strtod : Strtod) (g : GData) (key : Bytes) :
    (call : KeyCall) → Decidable (call.CreatesZset strtod g key)
  | .request _ [word, other, score, _] =>
      inferInstanceAs (Decidable (other = key ∧ cmdIs word "zadd" = true ∧
        (str2double strtod score).isSome = true ∧ ¬g.HasKey key))
  | .request _ [] => .isFalse id
  | .request _ [_] => .isFalse id
  | .request _ [_, _] => .isFalse id
  | .request _ [_, _, _] => .isFalse id
  | .request _ (_ :: _ :: _ :: _ :: _ :: _) => .isFalse id
  | .expire _ _ _ => .isFalse id
  | .ttl _ _ => .isFalse id
  | .timers _ => .isFalse id

def plainNext (strtod : Strtod) (key : Bytes) (g : GData) (call : KeyCall) : Option GData :=
  if call.CreatesZset strtod g key then none else keyNext strtod g call

theorem plainNext_sound (strtod : Strtod) (key : Bytes) (g : GData) (call : KeyCall)
    (after : GData) (stepped : plainNext strtod key g call = some after) :
    PlainStep strtod key g call after := by
  unfold plainNext at stepped
  split at stepped
  · cases stepped
  · rename_i plain
    exact ⟨keyNext_sound strtod g call after stepped, plain⟩

/-- The key `a` is set, refuses a `zadd`, is read and deleted, and is set again after a sorted
set has been created under another key. -/
def mixedCalls : List KeyCall :=
  [.request ⟨1, 1⟩ [ascii "set", [97], [120]],
    .request ⟨2, 2⟩ [ascii "zadd", [97], ascii "1", [109]],
    .request ⟨2, 2⟩ [ascii "get", [97]], .request ⟨2, 2⟩ [ascii "del", [97]],
    .request ⟨2, 2⟩ [ascii "zadd", [122], ascii "1", [109]],
    .request ⟨3, 3⟩ [ascii "set", [97], [121]]]

theorem key_has_one_type_unless_created_mixed :
    ∃ g, Runs (PlainStep strtodOne [97]) {} mixedCalls g ∧ AnswersString g [97] ∧
      OneType strtodOne g [97] := by
  have followed : ((follow (plainNext strtodOne [97]) {} mixedCalls).any fun g =>
      (doGet g [97] []).toOption.any fun got =>
        decide (got.2 = (Value.str [121]).encode)) = true := by
    decide +kernel
  obtain ⟨g, gIs, gets⟩ := (Option.any_eq_true _ _).mp followed
  obtain ⟨⟨after, text⟩, gotIs, textIs⟩ := (Option.any_eq_true _ _).mp gets
  have got := eq_ok_of_toOption gotIs
  rw [show text = _ from of_decide_eq_true textIs] at got
  have run := runs_of_follow_eq (plainNext_sound strtodOne [97]) gIs
  exact ⟨g, run, ⟨after, [121], got⟩,
    (key_has_one_type_unless_created strtodOne [97]).1 mixedCalls g run⟩

def zaddOne : List KeyCall := [.request ⟨1, 1⟩ [ascii "zadd", [122], ascii "1", [109]]]

/-- After `zadd z 1 m`, `get z` replies with the empty string and `zscore z m` with 1. -/
theorem zset_key_answers_as_string :
    ∃ g, Runs (KeyStep strtodOne) {} zaddOne g ∧ ¬OneType strtodOne g [122] := by
  have followed : ((follow (keyNext strtodOne) {} zaddOne).any fun g =>
      decide (Alloc.Unused ⟨2, 2⟩ g) &&
        ((doGet g [122] []).toOption.any fun got =>
          decide (got.2 = (Value.str []).encode)) &&
        (doRequest strtodOne g ⟨2, 2⟩ [ascii "zscore", [122], [109]] []).toOption.any
          fun scored => decide (scored.2 = (Value.dbl ⟨0x3FF0000000000000⟩).encode)) = true := by
    decide +kernel
  obtain ⟨g, gIs, checks⟩ := (Option.any_eq_true _ _).mp followed
  obtain ⟨both, scores⟩ := Bool.and_eq_true_iff.mp checks
  obtain ⟨unused, gets⟩ := Bool.and_eq_true_iff.mp both
  obtain ⟨⟨afterGet, text⟩, gotIs, textIs⟩ := (Option.any_eq_true _ _).mp gets
  obtain ⟨⟨afterScore, number⟩, scoredIs, numberIs⟩ := (Option.any_eq_true _ _).mp scores
  have got := eq_ok_of_toOption gotIs
  have scored := eq_ok_of_toOption scoredIs
  rw [show text = _ from of_decide_eq_true textIs] at got
  rw [show number = _ from of_decide_eq_true numberIs] at scored
  refine ⟨g, runs_of_follow_eq (keyNext_sound strtodOne) gIs, ?_⟩
  intro oneType
  apply oneType
  refine ⟨⟨afterGet, [], got⟩, ⟨2, 2⟩, _, afterScore, _, of_decide_eq_true unused,
    .zscore (by decide), scored, ?_⟩
  intro contrary
  cases contrary

end RedisC
