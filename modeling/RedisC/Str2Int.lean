/-
Integer arguments at face value.

`str2int` compares the end of what `strtoll` has read with the end of the
string and looks at nothing else.  A text without digits is then accepted when
there is nothing to read, and a number out of range is accepted as the nearest
one in range.  On every other text the handlers use the number that the text
denotes or refuse it.
-/

import RedisC.Lib.Fallible
import RedisC.Keyspace

namespace RedisC

open Fallible

/-- White space, at most one sign, and at least one digit. -/
structure Numeral where
  spaces : Bytes
  sign : Bytes
  digits : Bytes
  allSpace : ∀ byte ∈ spaces, isSpace byte = true
  oneSign : sign = [] ∨ sign = [43] ∨ sign = [45]
  nonempty : digits ≠ []
  allDigits : ∀ byte ∈ digits, isDigit byte = true

def Numeral.text (numeral : Numeral) : Bytes :=
  numeral.spaces ++ (numeral.sign ++ numeral.digits)

def Numeral.value (numeral : Numeral) : Int :=
  if numeral.sign = [45] then -(decimal numeral.digits) else decimal numeral.digits

def InInt64 (value : Int) : Prop := -2 ^ 63 ≤ value ∧ value ≤ 2 ^ 63 - 1

instance (value : Int) : Decidable (InInt64 value) := inferInstanceAs (Decidable (_ ∧ _))

/-- The text denotes an integer in the range of `int64_t`. -/
def FaceValue (s : Bytes) (value : Int) : Prop :=
  ∃ numeral : Numeral, numeral.text = s ∧ numeral.value = value ∧ InInt64 value

def saturate (value : Int) : Int := max (-2 ^ 63) (min (2 ^ 63 - 1) value)

private theorem saturate_of_inInt64 {value : Int} (inside : InInt64 value) :
    saturate value = value := by
  obtain ⟨low, high⟩ := inside
  rw [saturate, Int.min_eq_right high, Int.max_eq_right low]

/-! ### What `strtoll` reads -/

def isSign (byte : UInt8) : Bool := byte == 45 || byte == 43

def readSpaces (text : Bytes) : Bytes := text.takeWhile isSpace

def afterSpaces (text : Bytes) : Bytes := text.drop (readSpaces text).length

def readSign (text : Bytes) : Bytes := ((afterSpaces text).takeWhile isSign).take 1

def readDigits (text : Bytes) : Bytes :=
  ((afterSpaces text).drop (readSign text).length).takeWhile isDigit

def readValue (text : Bytes) : Int :=
  if readSign text == [45] then -(decimal (readDigits text)) else decimal (readDigits text)

theorem strtoll_eq (text : Bytes) :
    strtoll text =
      if (readDigits text).isEmpty then (0, 0)
      else
        (saturate (readValue text),
          (readSpaces text).length + (readSign text).length + (readDigits text).length) := rfl

private theorem takeWhile_stop {test : UInt8 → Bool} {run rest : Bytes}
    (all : ∀ byte ∈ run, test byte = true) (stop : ∀ byte ∈ rest.head?, test byte = false) :
    (run ++ rest).takeWhile test = run := by
  rw [List.takeWhile_append_of_pos all]
  cases rest with
  | nil => rw [List.takeWhile_nil, List.append_nil]
  | cons byte more =>
      have stops := stop byte rfl
      rw [List.takeWhile_cons_of_neg (by rw [stops]; decide), List.append_nil]

private theorem digit_bounds {byte : UInt8} (digit : isDigit byte = true) :
    48 ≤ byte.toNat ∧ byte.toNat ≤ 57 := by
  rw [isDigit, Bool.and_eq_true, decide_eq_true_eq, decide_eq_true_eq] at digit
  exact ⟨UInt8.le_iff_toNat_le.mp digit.1, UInt8.le_iff_toNat_le.mp digit.2⟩

private theorem digit_isSpace {byte : UInt8} (digit : isDigit byte = true) :
    isSpace byte = false := by
  have bounds := digit_bounds digit
  simp only [isSpace, Bool.or_eq_false_iff, Bool.and_eq_false_iff, beq_eq_false_iff_ne,
    decide_eq_false_iff_not, UInt8.le_iff_toNat_le, ne_eq, ← UInt8.toNat_inj]
  change ¬byte.toNat = 32 ∧ (¬9 ≤ byte.toNat ∨ ¬byte.toNat ≤ 13)
  omega

private theorem digit_isSign {byte : UInt8} (digit : isDigit byte = true) :
    isSign byte = false := by
  have bounds := digit_bounds digit
  simp only [isSign, Bool.or_eq_false_iff, beq_eq_false_iff_ne, ne_eq, ← UInt8.toNat_inj]
  change ¬byte.toNat = 45 ∧ ¬byte.toNat = 43
  omega

section Read

variable (numeral : Numeral)

theorem Numeral.sign_byte {byte : UInt8} (member : byte ∈ numeral.sign) :
    byte = 43 ∨ byte = 45 := by
  rcases numeral.oneSign with noSign | plus | minus
  · rw [noSign] at member
    cases member
  · rw [plus] at member
    exact .inl (List.mem_singleton.mp member)
  · rw [minus] at member
    exact .inr (List.mem_singleton.mp member)

theorem Numeral.sign_short : numeral.sign.length ≤ 1 := by
  rcases numeral.oneSign with noSign | plus | minus
  · rw [noSign]
    decide
  · rw [plus]
    decide
  · rw [minus]
    decide

theorem Numeral.readSpaces_eq : readSpaces numeral.text = numeral.spaces := by
  apply takeWhile_stop numeral.allSpace
  intro first found
  rcases List.mem_append.mp (List.mem_of_mem_head? found) with inSign | inDigits
  · rcases numeral.sign_byte inSign with rfl | rfl
    · decide
    · decide
  · exact digit_isSpace (numeral.allDigits first inDigits)

theorem Numeral.afterSpaces_eq :
    afterSpaces numeral.text = numeral.sign ++ numeral.digits := by
  rw [afterSpaces, numeral.readSpaces_eq, Numeral.text, List.drop_left]

theorem Numeral.readSign_eq : readSign numeral.text = numeral.sign := by
  have whole : (numeral.sign ++ numeral.digits).takeWhile isSign = numeral.sign := by
    apply takeWhile_stop
    · intro byte member
      rcases numeral.sign_byte member with rfl | rfl
      · decide
      · decide
    · intro first found
      exact digit_isSign (numeral.allDigits first (List.mem_of_mem_head? found))
  rw [readSign, numeral.afterSpaces_eq, whole, List.take_of_length_le numeral.sign_short]

theorem Numeral.readDigits_eq : readDigits numeral.text = numeral.digits := by
  rw [readDigits, numeral.afterSpaces_eq, numeral.readSign_eq, List.drop_left]
  exact List.takeWhile_eq_self_iff.mpr numeral.allDigits

theorem Numeral.readValue_eq : readValue numeral.text = numeral.value := by
  rw [readValue, numeral.readSign_eq, numeral.readDigits_eq, Numeral.value]
  simp only [beq_iff_eq]

theorem Numeral.strtoll_eq :
    strtoll numeral.text = (saturate numeral.value, numeral.text.length) := by
  have some : (readDigits numeral.text).isEmpty = false := by
    rw [numeral.readDigits_eq]
    exact Bool.eq_false_iff.mpr (fun empty => numeral.nonempty (List.isEmpty_iff.mp empty))
  rw [RedisC.strtoll_eq, some, numeral.readValue_eq, numeral.readSpaces_eq, numeral.readSign_eq,
    numeral.readDigits_eq, Numeral.text, List.length_append, List.length_append, Nat.add_assoc]
  rfl

/-- A numeral holds no NUL, so all of it is seen by `strtoll`. -/
theorem Numeral.cStr_eq : cStr numeral.text = numeral.text := by
  apply List.takeWhile_eq_self_iff.mpr
  intro byte member
  rw [bne_iff_ne]
  intro nul
  subst nul
  rcases List.mem_append.mp member with inSpaces | rest
  · have space := numeral.allSpace 0 inSpaces
    revert space
    decide
  · rcases List.mem_append.mp rest with inSign | inDigits
    · rcases numeral.sign_byte inSign with plus | minus
      · exact absurd plus (by decide)
      · exact absurd minus (by decide)
    · have digit := numeral.allDigits 0 inDigits
      revert digit
      decide

theorem Numeral.str2int_eq : str2int numeral.text = some (saturate numeral.value) := by
  rw [str2int, numeral.cStr_eq, numeral.strtoll_eq]
  exact if_pos rfl

end Read

theorem Numeral.value_unique {numeral other : Numeral} (same : numeral.text = other.text) :
    numeral.value = other.value := by
  rw [← numeral.readValue_eq, ← other.readValue_eq, same]

/-- What `strtoll` has read is a numeral at the start of the text. -/
private theorem readDigits_numeral {text : Bytes} (some : readDigits text ≠ []) :
    ∃ numeral : Numeral, ∃ rest, text = numeral.text ++ rest ∧
      numeral.text.length =
        (readSpaces text).length + (readSign text).length + (readDigits text).length := by
  have signs : ∀ byte ∈ readSign text, isSign byte = true := by
    intro byte member
    exact List.mem_takeWhile_imp (List.mem_of_mem_take member)
  have short : (readSign text).length ≤ 1 := List.length_take_le _ _
  have oneSign : readSign text = [] ∨ readSign text = [43] ∨ readSign text = [45] := by
    cases sign : readSign text with
    | nil => exact .inl rfl
    | cons byte more =>
        rw [sign] at signs short
        have alone : more = [] := List.eq_nil_of_length_eq_zero (by simpa using short)
        subst alone
        have isSgn := signs byte List.mem_cons_self
        rw [isSign, Bool.or_eq_true, beq_iff_eq, beq_iff_eq] at isSgn
        rcases isSgn with minus | plus
        · exact .inr (.inr (by rw [minus]))
        · exact .inr (.inl (by rw [plus]))
  refine ⟨⟨readSpaces text, readSign text, readDigits text,
    fun _ member => List.mem_takeWhile_imp member, oneSign, some,
    fun _ member => List.mem_takeWhile_imp member⟩,
    ((afterSpaces text).drop (readSign text).length).drop (readDigits text).length, ?_, ?_⟩
  · have spaces : text = readSpaces text ++ afterSpaces text :=
      List.prefix_append_drop (List.takeWhile_prefix isSpace)
    have sign : afterSpaces text =
        readSign text ++ (afterSpaces text).drop (readSign text).length :=
      List.prefix_append_drop ((List.take_prefix 1 _).trans (List.takeWhile_prefix isSign))
    have digits : (afterSpaces text).drop (readSign text).length = readDigits text ++ _ :=
      List.prefix_append_drop (List.takeWhile_prefix isDigit)
    calc text = readSpaces text ++ afterSpaces text := spaces
      _ = readSpaces text ++
          (readSign text ++ (afterSpaces text).drop (readSign text).length) := by rw [← sign]
      _ = readSpaces text ++ (readSign text ++ (readDigits text ++
          ((afterSpaces text).drop (readSign text).length).drop (readDigits text).length)) := by
        rw [← digits]
      _ = _ := by simp only [Numeral.text, List.append_assoc]
  · rw [Numeral.text, List.length_append, List.length_append, Nat.add_assoc]

/-- The texts that `str2int` accepts: the empty one, and every numeral. -/
private theorem str2int_eq_some {s : Bytes} {out : Int} (accepted : str2int s = some out) :
    (s = [] ∧ out = 0) ∨
      ∃ numeral : Numeral, numeral.text = s ∧ out = saturate numeral.value := by
  unfold str2int at accepted
  rw [strtoll_eq] at accepted
  by_cases noDigits : readDigits (cStr s) = []
  · rw [noDigits] at accepted
    left
    simp only [List.isEmpty_nil, if_true] at accepted
    split at accepted
    · rename_i atEnd
      exact ⟨List.eq_nil_of_length_eq_zero atEnd.symm, (Option.some.inj accepted).symm⟩
    · cases accepted
  · right
    obtain ⟨numeral, rest, textIs, lengthIs⟩ := readDigits_numeral noDigits
    have some : (readDigits (cStr s)).isEmpty = false :=
      Bool.eq_false_iff.mpr (fun empty => noDigits (List.isEmpty_iff.mp empty))
    rw [some] at accepted
    simp only [Bool.false_eq_true, if_false] at accepted
    split at accepted
    · rename_i atEnd
      -- the numeral reaches the end of `s`, so there is neither a rest nor a NUL
      have isPrefix : numeral.text <+: s := by
        refine List.IsPrefix.trans ⟨rest, textIs.symm⟩ ?_
        exact List.takeWhile_prefix _
      have whole : numeral.text = s := isPrefix.eq_of_length (lengthIs.trans atEnd)
      have read := numeral.readValue_eq
      rw [whole] at read
      have seen := numeral.cStr_eq
      rw [whole] at seen
      rw [seen, read] at accepted
      exact ⟨numeral, whole, (Option.some.inj accepted).symm⟩
    · cases accepted

/-! ### The handlers -/

def expireKey (g : GData) (now : UInt64) (key : Bytes) (ttlMs : Int) (out : Bytes) :
    Except Fault (GData × Bytes) := do
  match ← dbLookup g key with
  | (g, none) => pure (g, outInt out 0)
  | (g, some ent) =>
      let timers ← entrySetTtl g.timers ent ttlMs now
      pure ({ g with timers := timers }, outInt out 1)

def zqueryKey (g : GData) (key : Bytes) (score : Score) (name : Bytes) (offset limit : Int)
    (out : Bytes) : Except Fault (GData × Bytes) := do
  match ← expectZset g key out with
  | (g, out, none) =>
      if out.head? = some serNil then pure (g, outArr [] 0) else pure (g, out)
  | (g, out, some (_, zset)) =>
      let out ← zqueryEntry zset score name offset limit out
      pure (g, out)

/-- The argument is used as the integer that it denotes, or refused. -/
def AtFaceValue {β : Type} (handler : Bytes → β) (body : Int → β) (refused : β)
    (s : Bytes) : Prop :=
  (∀ value, FaceValue s value → handler s = body value) ∧
    ((∀ value, ¬FaceValue s value) → handler s = refused)

/-- The texts that are not the empty one and not a number out of range. -/
def Representable (s : Bytes) : Prop :=
  s ≠ [] ∧ ∀ numeral : Numeral, numeral.text = s → InInt64 numeral.value

/-- A handler that goes by `str2int` takes exactly the representable texts at face
value, if its body never gives the answer of a refusal. -/
private theorem atFaceValue_iff {β : Type} {handler : Bytes → β} {body : Int → β} {refused : β}
    (accepts : ∀ s value, str2int s = some value → handler s = body value)
    (refuses : ∀ s, str2int s = none → handler s = refused)
    (apart : ∀ value, body value ≠ refused) (s : Bytes) :
    AtFaceValue handler body refused s ↔ Representable s := by
  constructor
  · intro faithful
    constructor
    · intro empty
      subst empty
      have noValue : ∀ value, ¬FaceValue [] value := by
        intro value face
        obtain ⟨numeral, textIs, _⟩ := face
        have parts := List.append_eq_nil_iff.mp textIs
        exact numeral.nonempty (List.append_eq_nil_iff.mp parts.2).2
      exact apart 0 ((accepts [] 0 rfl).symm.trans (faithful.2 noValue))
    · intro numeral textIs
      by_contra outside
      have noValue : ∀ value, ¬FaceValue s value := by
        intro value face
        obtain ⟨other, otherText, otherValue, inside⟩ := face
        rw [← otherValue, Numeral.value_unique (otherText.trans textIs.symm)] at inside
        exact outside inside
      have read := numeral.str2int_eq
      rw [textIs] at read
      exact apart _ ((accepts s _ read).symm.trans (faithful.2 noValue))
  · intro representable
    obtain ⟨nonempty, inRange⟩ := representable
    constructor
    · intro value face
      obtain ⟨numeral, textIs, valueIs, inside⟩ := face
      have read := numeral.str2int_eq
      rw [textIs, valueIs, saturate_of_inInt64 inside] at read
      exact accepts s value read
    · intro noValue
      apply refuses
      cases read : str2int s with
      | none => rfl
      | some out =>
          rcases str2int_eq_some read with empty | number
          · exact absurd empty.1 nonempty
          · obtain ⟨numeral, textIs, _⟩ := number
            exact absurd ⟨numeral, textIs, rfl, inRange numeral textIs⟩ (noValue numeral.value)

private theorem expireKey_not_refused (g : GData) (now : UInt64) (key : Bytes) (ttlMs : Int) :
    expireKey g now key ttlMs [] ≠ .ok (g, outErr [] errArg "expecting int64") := by
  intro same
  obtain ⟨⟨found, ent⟩, _, rest⟩ := bind_eq_ok same
  cases ent with
  | none =>
      have replies := congrArg Prod.snd (Except.ok.inj rest)
      cases replies
  | some ent =>
      obtain ⟨timers, _, rest⟩ := bind_eq_ok rest
      have replies := congrArg Prod.snd (Except.ok.inj rest)
      cases replies

private theorem outUpdateArr_head {out reply : Bytes} {n : UInt32}
    (updated : outUpdateArr out n = .ok reply) : reply.head? = some serArr := by
  unfold outUpdateArr at updated
  by_cases array : out.head? ≠ some serArr
  · rw [if_pos array] at updated
    cases updated
  · rw [if_neg array] at updated
    split at updated
    · cases updated
    · cases updated
      rfl

private theorem zqueryEntry_head {zset : ZSet} {score : Score} {name reply : Bytes}
    {offset limit : Int}
    (returned : zqueryEntry zset score name offset limit [] = .ok reply) :
    reply.head? = some serArr := by
  unfold zqueryEntry at returned
  split at returned
  · cases returned
    rfl
  · obtain ⟨znode, _, rest⟩ := bind_eq_ok returned
    obtain ⟨⟨out, n⟩, _, updated⟩ := bind_eq_ok rest
    exact outUpdateArr_head updated

private theorem expectZset_reply {g found : GData} {key out : Bytes} {entry : Option (Ptr × ZSet)}
    (returned : expectZset g key [] = .ok (found, out, entry)) :
    (entry = none ∧ (out = outNil [] ∨ out = outErr [] errType "expecting zset")) ∨
      (entry ≠ none ∧ out = []) := by
  obtain ⟨⟨looked, ent⟩, _, rest⟩ := bind_eq_ok returned
  cases ent with
  | none =>
      cases rest
      exact .inl ⟨rfl, .inl rfl⟩
  | some ent =>
      dsimp only at rest
      split at rest
      · cases rest
        exact .inl ⟨rfl, .inr rfl⟩
      · cases rest
      · cases rest
        exact .inr ⟨Option.some_ne_none _, rfl⟩

private theorem zqueryKey_not_refused (g : GData) (key : Bytes) (score : Score) (name : Bytes)
    (offset limit : Int) :
    zqueryKey g key score name offset limit [] ≠
      .ok (g, outErr [] errArg "expecting int") := by
  intro same
  obtain ⟨⟨found, out, entry⟩, expected, rest⟩ := bind_eq_ok same
  rcases expectZset_reply expected with missed | found
  · obtain ⟨rfl, replied⟩ := missed
    rcases replied with rfl | rfl
    · have replies := congrArg Prod.snd (Except.ok.inj rest)
      cases replies
    · have replies := congrArg Prod.snd (Except.ok.inj rest)
      cases replies
  · obtain ⟨present, rfl⟩ := found
    cases entry with
    | none => exact present rfl
    | some entry =>
        obtain ⟨reply, returned, rest⟩ := bind_eq_ok rest
        have replies : reply = outErr [] errArg "expecting int" :=
          congrArg Prod.snd (Except.ok.inj rest)
        have array := zqueryEntry_head returned
        rw [replies] at array
        cases array

private theorem doExpire_atFaceValue_iff (g : GData) (now : UInt64) (key s : Bytes) :
    AtFaceValue (fun ttlMs => doExpire g now key ttlMs [])
        (fun ttlMs => expireKey g now key ttlMs [])
        (.ok (g, outErr [] errArg "expecting int64")) s ↔ Representable s := by
  apply atFaceValue_iff
  · intro text value accepted
    rw [doExpire, accepted]
    rfl
  · intro text refused
    rw [doExpire, refused]
  · exact fun value => expireKey_not_refused g now key value

section Zquery

variable {strtod : Strtod} {scoreText other : Bytes} {score : Score} {otherValue : Int}

private theorem doZquery_offset_atFaceValue_iff (scoreIs : str2double strtod scoreText = some score)
    (otherIs : str2int other = some otherValue) (g : GData) (key name s : Bytes) :
    AtFaceValue (fun offset => doZquery strtod g key scoreText name offset other [])
        (fun offset => zqueryKey g key score name offset otherValue [])
        (.ok (g, outErr [] errArg "expecting int")) s ↔ Representable s := by
  apply atFaceValue_iff
  · intro text value accepted
    rw [doZquery, scoreIs, accepted, otherIs]
    rfl
  · intro text refused
    rw [doZquery, scoreIs, refused]
  · exact fun value => zqueryKey_not_refused g key score name value otherValue

private theorem doZquery_limit_atFaceValue_iff (scoreIs : str2double strtod scoreText = some score)
    (otherIs : str2int other = some otherValue) (g : GData) (key name s : Bytes) :
    AtFaceValue (fun limit => doZquery strtod g key scoreText name other limit [])
        (fun limit => zqueryKey g key score name otherValue limit [])
        (.ok (g, outErr [] errArg "expecting int")) s ↔ Representable s := by
  apply atFaceValue_iff
  · intro text value accepted
    rw [doZquery, scoreIs, otherIs, accepted]
    rfl
  · intro text refused
    rw [doZquery, scoreIs, otherIs, refused]
  · exact fun value => zqueryKey_not_refused g key score name otherValue value

end Zquery

/-- The TTL of `do_expire` and the offset and the limit of `do_zquery` are taken at face
value or refused exactly when the text is neither empty nor a number out of range.
Whether `do_zquery` has passed the check of one of them shows once its other
arguments are accepted. -/
theorem int_arguments_at_face_value_iff (s : Bytes) (g : GData) (key : Bytes) :
    (∀ now, AtFaceValue (fun ttlMs => doExpire g now key ttlMs [])
        (fun ttlMs => expireKey g now key ttlMs [])
        (.ok (g, outErr [] errArg "expecting int64")) s ↔ Representable s) ∧
    ∀ (strtod : Strtod) (scoreText name other : Bytes) (score : Score) (otherValue : Int),
      str2double strtod scoreText = some score → str2int other = some otherValue →
      (AtFaceValue (fun offset => doZquery strtod g key scoreText name offset other [])
          (fun offset => zqueryKey g key score name offset otherValue [])
          (.ok (g, outErr [] errArg "expecting int")) s ↔ Representable s) ∧
      (AtFaceValue (fun limit => doZquery strtod g key scoreText name other limit [])
          (fun limit => zqueryKey g key score name otherValue limit [])
          (.ok (g, outErr [] errArg "expecting int")) s ↔ Representable s) := by
  refine ⟨fun now => doExpire_atFaceValue_iff g now key s, ?_⟩
  intro strtod scoreText name other score otherValue scoreIs otherIs
  exact ⟨doZquery_offset_atFaceValue_iff scoreIs otherIs g key name s,
    doZquery_limit_atFaceValue_iff scoreIs otherIs g key name s⟩

def seven : Numeral where
  spaces := []
  sign := []
  digits := [55]
  allSpace := fun _ member => absurd member List.not_mem_nil
  oneSign := .inl rfl
  nonempty := List.cons_ne_nil _ _
  allDigits := List.forall_mem_singleton.mpr rfl

theorem int_arguments_at_face_value_iff_seven :
    Representable [55] ∧
      AtFaceValue
        (fun limit => doZquery (fun text => (Score.one.value, text.length)) {} [97] [49] []
          [48] limit [])
        (fun limit => zqueryKey {} [97] Score.one [] 0 limit [])
        (.ok ({}, outErr [] errArg "expecting int")) [55] := by
  have representable : Representable [55] := by
    refine ⟨List.cons_ne_nil _ _, ?_⟩
    intro numeral textIs
    rw [Numeral.value_unique (show numeral.text = seven.text from textIs)]
    decide
  refine ⟨representable, ?_⟩
  have places := (int_arguments_at_face_value_iff [55] {} [97]).2
    (fun text => (Score.one.value, text.length)) [49] [] [48] Score.one 0 rfl rfl
  exact places.2.mpr representable

/-- The empty TTL is accepted as 0: the key is due at the moment of the call. -/
theorem expire_accepts_empty_text :
    ∃ g after, doSet {} ⟨1, 2⟩ [97] [120] [] = .ok (g, outNil []) ∧
      doExpire g 100 [97] [] [] = .ok (after, outInt [] 1) ∧
      after.timers.heap = [⟨100, 1⟩] ∧
      ¬AtFaceValue (fun ttlMs => doExpire g 100 [97] ttlMs [])
        (fun ttlMs => expireKey g 100 [97] ttlMs [])
        (.ok (g, outErr [] errArg "expecting int64")) [] := by
  have evaluated : ((doSet {} ⟨1, 2⟩ [97] [120] []).toOption.any fun stored =>
      decide (stored.2 = outNil []) &&
        (doExpire stored.1 100 [97] [] []).toOption.any fun expired =>
          decide (expired.2 = outInt [] 1) &&
            decide (expired.1.timers.heap = [⟨100, 1⟩])) = true := by
    decide +kernel
  obtain ⟨⟨g, reply⟩, storedIs, both⟩ := (Option.any_eq_true _ _).mp evaluated
  obtain ⟨replyIs, expires⟩ := Bool.and_eq_true_iff.mp both
  obtain ⟨⟨after, answer⟩, expiredIs, rest⟩ := (Option.any_eq_true _ _).mp expires
  obtain ⟨answerIs, heapIs⟩ := Bool.and_eq_true_iff.mp rest
  have stored := eq_ok_of_toOption storedIs
  have expired := eq_ok_of_toOption expiredIs
  rw [show reply = outNil [] from of_decide_eq_true replyIs] at stored
  rw [show answer = outInt [] 1 from of_decide_eq_true answerIs] at expired
  refine ⟨g, after, stored, expired, of_decide_eq_true heapIs, ?_⟩
  intro faithful
  exact ((doExpire_atFaceValue_iff g 100 [97] []).mp faithful).1 rfl

end RedisC
