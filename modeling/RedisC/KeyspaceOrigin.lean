/-
Where the records of the dictionary come from.

A request leaves a record as it was, or it is a `set`, a `zadd` or a `zrem` on
the key of the record.  An invariant of all records is a case analysis over
these four, for every call on the keyspace: the other calls add no record.
-/

import RedisC.Lib.PartialMap
import RedisC.ExpiryRuns

namespace RedisC

open PartialMap

inductive RecordOrigin (strtod : Strtod) (dict : Dict) (key : Bytes) (record : Record) :
    List Bytes → Prop
  | kept (cmd : List Bytes) (found : dict key = some record) :
      RecordOrigin strtod dict key record cmd
  | set {word val : Bytes} {old : Record} (isSet : cmdIs word "set" = true)
      (source : dict key = some old ∨ (dict key = none ∧ old = {}))
      (is : record = { old with val := val }) :
      RecordOrigin strtod dict key record [word, key, val]
  | zadd {word scoreText name : Bytes} {score : Score} {old : Record}
      (isZadd : cmdIs word "zadd" = true) (parsed : str2double strtod scoreText = some score)
      (source : (dict key = some old ∧ old.type ≠ .str) ∨
        (dict key = none ∧ old = { type := .zset }))
      (is : record = Reference.addMember old name score) :
      RecordOrigin strtod dict key record [word, key, scoreText, name]
  | zrem {word name : Bytes} {old : Record} (isZrem : cmdIs word "zrem" = true)
      (found : dict key = some old) (type : old.type ≠ .str)
      (is : record = { old with members := Function.update old.members name none }) :
      RecordOrigin strtod dict key record [word, key, name]

section

variable {strtod : Strtod} {dict : Dict} {key other : Bytes} {record : Record}

theorem reference_get_same (dict : Dict) (key : Bytes) : (Reference.get dict key).1 = dict := by
  unfold Reference.get
  split
  · rfl
  · rfl

theorem reference_zscore_same (dict : Dict) (key name : Bytes) :
    (Reference.zscore dict key name).1 = dict := by
  unfold Reference.zscore
  split
  · rfl
  · split
    · rfl
    · split
      · rfl
      · rfl

private theorem reference_del_origin (found : (Reference.del dict key).1 other = some record) :
    dict other = some record := by
  unfold Reference.del at found
  split at found
  · exact found
  · exact eq_some_of_update_none found

private theorem reference_set_origin {word val : Bytes} (isSet : cmdIs word "set" = true)
    (found : (Reference.set dict key val).1 other = some record) :
    RecordOrigin strtod dict other record [word, key, val] := by
  unfold Reference.set at found
  split at found
  · rename_i absent
    rcases update_some_eq_some found with stored | kept
    · obtain ⟨rfl, is⟩ := stored
      exact .set isSet (.inr ⟨absent, rfl⟩) is
    · exact .kept _ kept.2
  · rename_i old present
    rcases update_some_eq_some found with stored | kept
    · obtain ⟨rfl, is⟩ := stored
      exact .set isSet (.inl present) is
    · exact .kept _ kept.2

private theorem reference_zadd_origin {word scoreText name : Bytes}
    (isZadd : cmdIs word "zadd" = true)
    (found : (Reference.zadd strtod dict key scoreText name).1 other = some record) :
    RecordOrigin strtod dict other record [word, key, scoreText, name] := by
  unfold Reference.zadd at found
  split at found
  · exact .kept _ found
  · rename_i score parsed
    split at found
    · rename_i absent
      rcases update_some_eq_some found with stored | kept
      · obtain ⟨rfl, is⟩ := stored
        exact .zadd isZadd parsed (.inr ⟨absent, rfl⟩) is
      · exact .kept _ kept.2
    · rename_i old present
      split at found
      · exact .kept _ found
      · rename_i type
        rcases update_some_eq_some found with stored | kept
        · obtain ⟨rfl, is⟩ := stored
          exact .zadd isZadd parsed (.inl ⟨present, type⟩) is
        · exact .kept _ kept.2

private theorem reference_zrem_origin {word name : Bytes} (isZrem : cmdIs word "zrem" = true)
    (found : (Reference.zrem dict key name).1 other = some record) :
    RecordOrigin strtod dict other record [word, key, name] := by
  unfold Reference.zrem at found
  split at found
  · exact .kept _ found
  · rename_i old present
    split at found
    · exact .kept _ found
    · rename_i type
      rcases update_some_eq_some found with stored | kept
      · obtain ⟨rfl, is⟩ := stored
        exact .zrem isZrem present type is
      · exact .kept _ kept.2

theorem request_origin {cmd : List Bytes}
    (found : (Reference.request strtod dict cmd).1 other = some record) :
    RecordOrigin strtod dict other record cmd := by
  match cmd with
  | [] => exact .kept _ found
  | [word] =>
      rw [Reference.request] at found
      split at found
      · exact .kept _ found
      · exact .kept _ found
  | [word, key] =>
      rw [Reference.request] at found
      split at found
      · rw [Reference.exact, reference_get_same] at found
        exact .kept _ found
      · split at found
        · exact .kept _ (reference_del_origin found)
        · exact .kept _ found
  | [word, key, arg] =>
      rw [Reference.request] at found
      split at found
      · rename_i isSet
        exact reference_set_origin isSet found
      · split at found
        · rename_i isZrem
          exact reference_zrem_origin isZrem found
        · split at found
          · rw [Reference.exact, reference_zscore_same] at found
            exact .kept _ found
          · exact .kept _ found
  | [word, key, score, name] =>
      rw [Reference.request] at found
      split at found
      · rename_i isZadd
        exact reference_zadd_origin isZadd found
      · exact .kept _ found
  | [word, key, score, name, offset] => exact .kept _ found
  | [word, key, score, name, offset, limit] =>
      rw [Reference.request] at found
      split at found
      · exact .kept _ found
      · exact .kept _ found
  | _ :: _ :: _ :: _ :: _ :: _ :: _ :: _ => exact .kept _ found

/-- A record is there after a call because it was there before, or because of a request. -/
theorem KeyEffect.origin {due dueNew : Bytes → Option UInt64} {call : KeyCall} {dictNew : Dict}
    (effect : KeyEffect strtod dict due call dictNew dueNew)
    (found : dictNew key = some record) :
    dict key = some record ∨
      ∃ alloc cmd, call = .request alloc cmd ∧ RecordOrigin strtod dict key record cmd := by
  cases effect with
  | request alloc cmd => exact .inr ⟨alloc, cmd, rfl, request_origin found⟩
  | expire now other ttlMs => exact .inl found
  | ttl now other => exact .inl found
  | timers now gone =>
      rw [without] at found
      split at found
      · cases found
      · exact .inl found

end

def EachRecord (holds : Record → Prop) (dict : Dict) : Prop :=
  ∀ key record, dict key = some record → holds record

theorem eachRecord_empty (holds : Record → Prop) : EachRecord holds fun _ => none := by
  intro key record contrary
  cases contrary

end RedisC
