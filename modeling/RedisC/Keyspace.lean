/-
The keyspace of the server and the command handlers.

`g_data.db` maps keys to entries; an entry is known by its address.  The
`heap_idx` fields of the entries live in the column of the timer heap.  `new`
and `malloc` return the addresses of an `Alloc`, one for an entry and one for a
member of a sorted set; which ones is left open but for those in use.

`strtod` is a parameter: from the text it computes a number and the count of
the characters it has read.
-/

import RedisC.Heap
import RedisC.Utils
import RedisC.Zset

namespace RedisC

inductive EntryType
  | str
  | zset
  deriving DecidableEq, Repr

structure Entry where
  hcode : UInt64 := 0
  key : Bytes := []
  val : Bytes := []
  type : EntryType := .str
  zset : Option ZSet := none

structure GData where
  db : HMap Ptr := {}
  entry : Ptr → Entry := fun _ => {}
  timers : Timers := {}
  /-- the entries that wait for a worker of the thread pool to destroy them -/
  tp : List Ptr := []

structure Alloc where
  entry : Ptr
  znode : Ptr

abbrev Strtod := Bytes → Double × Nat

/-! ### Arguments -/

def isSpace (byte : UInt8) : Bool := byte == 32 || (9 ≤ byte && byte ≤ 13)

def isDigit (byte : UInt8) : Bool := 48 ≤ byte && byte ≤ 57

def decimal (digits : Bytes) : Nat :=
  digits.foldl (fun number digit => number * 10 + (digit.toNat - 48)) 0

/-- The saturated number in base 10, and the count of the characters read. -/
def strtoll (text : Bytes) : Int × Nat :=
  let spaces := text.takeWhile isSpace
  let rest := text.drop spaces.length
  let sign := rest.takeWhile fun byte => byte == 45 || byte == 43
  let sign := sign.take 1
  let digits := (rest.drop sign.length).takeWhile isDigit
  if digits.isEmpty then (0, 0)
  else
    let number : Int := if sign == [45] then -(decimal digits) else decimal digits
    (max (-2 ^ 63) (min (2 ^ 63 - 1) number), spaces.length + sign.length + digits.length)

def str2int (s : Bytes) : Option Int :=
  let (out, endp) := strtoll (cStr s)
  if endp = s.length then some out else none

def str2double (strtod : Strtod) (s : Bytes) : Option Score :=
  let (out, endp) := strtod (cStr s)
  if endp = s.length then
    if number : out.isNaN = false then some ⟨out, number⟩ else none
  else none

/-! ### Entries -/

def entryEq (g : GData) (key : Bytes) (node : HNode Ptr) : Bool :=
  node.hcode == strHash key && (g.entry node.owner).key == key

/-- The search that every handler starts with. -/
def dbLookup (g : GData) (key : Bytes) : Except Fault (GData × Option Ptr) := do
  let (db, node) ← hmLookup hmFuel g.db (strHash key) (entryEq g key)
  pure ({ g with db := db }, node.map HNode.owner)

/-- `new Entry()` with the fields that the handler sets, and its insertion. -/
def dbInsert (g : GData) (ent : Ptr) (entry : Entry) : Except Fault GData := do
  let db ← hmInsert hmFuel g.db { owner := ent, hcode := entry.hcode }
  pure { g with
    db := db
    entry := Function.update g.entry ent entry
    timers := { g.timers with heapIdx := Function.update g.timers.heapIdx ent none } }

def setZset (g : GData) (ent : Ptr) (zset : ZSet) : GData :=
  { g with entry := Function.update g.entry ent { g.entry ent with zset := some zset } }

def kLargeContainerSize : Nat := 10000

/-- Sorted sets with many members are destroyed by the thread pool. -/
def entryTooBig (entry : Entry) : Except Fault Bool :=
  match entry.type, entry.zset with
  | .str, _ => .ok false
  | .zset, none => .error .nullDeref
  | .zset, some zset => .ok (decide (hmSize zset.hmap > kLargeContainerSize))

/-- Dispose of an entry that is no longer in the map. -/
def entryDel (g : GData) (ent : Ptr) : Except Fault GData := do
  let timers ← entrySetTtl g.timers ent (-1) 0
  let tooBig ← entryTooBig (g.entry ent)
  pure { g with timers := timers, tp := if tooBig then g.tp ++ [ent] else g.tp }

/-! ### Handlers -/

def doGet (g : GData) (key out : Bytes) : Except Fault (GData × Bytes) := do
  match ← dbLookup g key with
  | (g, none) => pure (g, outNil out)
  | (g, some ent) =>
      let val := (g.entry ent).val
      if val.length ≤ kMaxMsg then pure (g, outStr out val)
      else .error (.assertion .doGet)

def doSet (g : GData) (alloc : Alloc) (key val out : Bytes) :
    Except Fault (GData × Bytes) := do
  match ← dbLookup g key with
  | (g, some ent) =>
      let entry := Function.update g.entry ent { g.entry ent with val := val }
      pure ({ g with entry := entry }, outNil out)
  | (g, none) =>
      let g ← dbInsert g alloc.entry { hcode := strHash key, key := key, val := val }
      pure (g, outNil out)

def doDel (g : GData) (key out : Bytes) : Except Fault (GData × Bytes) := do
  match ← hmPop hmFuel g.db (strHash key) (entryEq g key) with
  | (db, none) => pure ({ g with db := db }, outInt out 0)
  | (db, some node) =>
      let g ← entryDel { g with db := db } node.owner
      pure (g, outInt out 1)

def cbScan (g : GData) (out : Bytes) (node : HNode Ptr) : Bytes :=
  outStr out (g.entry node.owner).key

def doKeys (g : GData) (out : Bytes) : Except Fault (GData × Bytes) :=
  let out := outArr out (UInt32.ofNat (hmSize g.db))
  let out := hScan g.db.htTo (cbScan g) out
  .ok (g, hScan g.db.htFrom (cbScan g) out)

/-- Add or update the tuple in the sorted set of `ent`. -/
def zaddEntry (g : GData) (alloc : Alloc) (ent : Ptr) (score : Score) (name out : Bytes) :
    Except Fault (GData × Bytes) :=
  match (g.entry ent).zset with
  | none => .error .nullDeref
  | some zset => do
      let (zset, added) ← zsetAdd zset alloc.znode name score
      pure (setZset g ent zset, outInt out (if added then 1 else 0))

def doZadd (strtod : Strtod) (g : GData) (alloc : Alloc) (key score name out : Bytes) :
    Except Fault (GData × Bytes) :=
  match str2double strtod score with
  | none => .ok (g, outErr out errArg "expected fp number")
  | some score => do
      match ← dbLookup g key with
      | (g, none) =>
          let g ← dbInsert g alloc.entry
            { hcode := strHash key, key := key, type := .zset, zset := some {} }
          zaddEntry g alloc alloc.entry score name out
      | (g, some ent) =>
          if (g.entry ent).type ≠ .zset then
            pure (g, outErr out errType "expecting zset")
          else
            zaddEntry g alloc ent score name out

/-- The reply when there is no sorted set, or else the sorted set. -/
def expectZset (g : GData) (key out : Bytes) :
    Except Fault (GData × Bytes × Option (Ptr × ZSet)) := do
  match ← dbLookup g key with
  | (g, none) => pure (g, outNil out, none)
  | (g, some ent) =>
      match (g.entry ent).type, (g.entry ent).zset with
      | .str, _ => pure (g, outErr out errType "expecting zset", none)
      | .zset, none => .error .nullDeref
      | .zset, some zset => pure (g, out, some (ent, zset))

def doZrem (g : GData) (key name out : Bytes) : Except Fault (GData × Bytes) := do
  match ← expectZset g key out with
  | (g, out, none) => pure (g, out)
  | (g, out, some (ent, zset)) =>
      let (zset, znode) ← zsetPop zset name
      pure (setZset g ent zset, outInt out (if znode.isSome then 1 else 0))

def doZscore (g : GData) (key name out : Bytes) : Except Fault (GData × Bytes) := do
  match ← expectZset g key out with
  | (g, out, none) => pure (g, out)
  | (g, out, some (ent, zset)) =>
      match ← zsetLookup zset name with
      | (zset, none) => pure (setZset g ent zset, outNil out)
      | (zset, some znode) =>
          pure (setZset g ent zset, outDouble out (zset.znode znode).score.value)

/-- The output loop of `do_zquery`.  The node after the last one is null, also
after `container_of`, since the tree node is the first field. -/
def zqueryLoop (zset : ZSet) (limit : Int) :
    Nat → Option Ptr → UInt32 → Bytes → Except Fault (Bytes × UInt32)
  | 0, _, _, _ => .error .outOfFuel
  | _ + 1, none, n, out => .ok (out, n)
  | fuel + 1, some znode, n, out =>
      if (n.toNat : Int) < limit then do
        let out := outStr out (zset.znode znode).name
        let out := outDouble out (zset.znode znode).score.value
        let next ← avlOffset zset.avl znode 1
        zqueryLoop zset limit fuel next (n + 2) out
      else
        .ok (out, n)

/-- The part of `do_zquery` after the sorted set is found. -/
def zqueryEntry (zset : ZSet) (score : Score) (name : Bytes) (offset limit : Int)
    (out : Bytes) : Except Fault Bytes :=
  if limit ≤ 0 then .ok (outArr out 0)
  else do
    let znode ← zsetQuery zset score name offset
    let (out, n) ← zqueryLoop zset limit avlFuel znode 0 (outArr out 0)
    outUpdateArr out n

def doZquery (strtod : Strtod) (g : GData) (key score name offset limit out : Bytes) :
    Except Fault (GData × Bytes) :=
  match str2double strtod score, str2int offset, str2int limit with
  | none, _, _ => .ok (g, outErr out errArg "expecting fp number")
  | some _, none, _ => .ok (g, outErr out errArg "expecting int")
  | some _, some _, none => .ok (g, outErr out errArg "expecting int")
  | some score, some offset, some limit => do
      match ← expectZset g key out with
      | (g, out, none) =>
          if out.head? = some serNil then pure (g, outArr [] 0) else pure (g, out)
      | (g, out, some (_, zset)) =>
          let out ← zqueryEntry zset score name offset limit out
          pure (g, out)

/-- The choice is by the number of strings and then by the command word. -/
def doRequest (strtod : Strtod) (g : GData) (alloc : Alloc) (cmd : List Bytes)
    (out : Bytes) : Except Fault (GData × Bytes) :=
  let unknown : Except Fault (GData × Bytes) := .ok (g, outErr out errUnknown "Unknown cmd")
  match cmd with
  | [word] => if cmdIs word "keys" then doKeys g out else unknown
  | [word, key] =>
      if cmdIs word "get" then doGet g key out
      else if cmdIs word "del" then doDel g key out
      else unknown
  | [word, key, arg] =>
      if cmdIs word "set" then doSet g alloc key arg out
      else if cmdIs word "zrem" then doZrem g key arg out
      else if cmdIs word "zscore" then doZscore g key arg out
      else unknown
  | [word, key, score, name] =>
      if cmdIs word "zadd" then doZadd strtod g alloc key score name out else unknown
  | [word, key, score, name, offset, limit] =>
      if cmdIs word "zquery" then doZquery strtod g key score name offset limit out
      else unknown
  | _ => unknown

/-! ### Time to live -/

def doExpire (g : GData) (now : UInt64) (key ttlMs out : Bytes) :
    Except Fault (GData × Bytes) :=
  match str2int ttlMs with
  | none => .ok (g, outErr out errArg "expecting int64")
  | some ttlMs => do
      match ← dbLookup g key with
      | (g, none) => pure (g, outInt out 0)
      | (g, some ent) =>
          let timers ← entrySetTtl g.timers ent ttlMs now
          pure ({ g with timers := timers }, outInt out 1)

def doTtl (g : GData) (now : UInt64) (key out : Bytes) : Except Fault (GData × Bytes) := do
  match ← dbLookup g key with
  | (g, none) => pure (g, outInt out (-2))
  | (g, some ent) =>
      match g.timers.heapIdx ent with
      | none => pure (g, outInt out (-1))
      | some i =>
          let item ← itemAt g.timers.heap i
          let left := if item.val > now then (item.val - now) / 1000 else 0
          pure (g, outInt out left.toInt64)

def hnodeSame (ent : Ptr) (node : HNode Ptr) : Bool := node.owner == ent

def kMaxWorks : Nat := 2000

/-- The loop of `process_timers` over the heap; `nowUs` has the extra 1000. -/
def expireLoop (nowUs : UInt64) : Nat → Nat → GData → Except Fault GData
  | 0, _, _ => .error .outOfFuel
  | fuel + 1, nworks, g =>
      match g.timers.heap with
      | [] => .ok g
      | first :: _ =>
          if first.val < nowUs then do
            let ent := first.ref
            let (db, node) ← hmPop hmFuel g.db (g.entry ent).hcode (hnodeSame ent)
            if node.map HNode.owner = some ent then do
              let g ← entryDel { g with db := db } ent
              if nworks ≥ kMaxWorks then pure g else expireLoop nowUs fuel (nworks + 1) g
            else
              .error (.assertion .processTimers)
          else
            .ok g

/-- The TTL part of `process_timers` at the clock reading `now`. -/
def processTtlTimers (g : GData) (now : UInt64) : Except Fault GData :=
  expireLoop (now + 1000) (kMaxWorks + 1) 0 g

end RedisC
