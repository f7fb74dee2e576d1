/-
The chained hash table with progressive resizing.

A bucket array is a list of chains, in chain order; `HNode::next` is the order
of a chain.  The intrusive node keeps its hash code and the address of the
object it is embedded in.  Every operation on the map first moves nodes of the
old table, so a lookup changes the map as well.

`fuel` bounds the iterations of the migration loop.  A call that returns with
some fuel returns the same value with every larger one.
-/

import RedisC.Machine

namespace RedisC

variable {α : Type}

structure HNode (α : Type) where
  owner : α
  hcode : UInt64
  deriving DecidableEq, Repr

structure HTable (α : Type) where
  table : Option (List (List (HNode α))) := none
  mask : Nat := 0
  size : Nat := 0

structure HMap (α : Type) where
  htTo : HTable α := {}
  htFrom : HTable α := {}
  resizingPos : Nat := 0

/-- An `HNode **`: a place in a chain of the bucket array. -/
structure Slot where
  bucket : Nat
  place : Nat
  deriving DecidableEq, Repr

def hInit (n : Nat) : Except Fault (HTable α) :=
  if n > 0 ∧ (n - 1) &&& n = 0 then
    .ok { table := some (List.replicate n []), mask := n - 1, size := 0 }
  else
    .error (.assertion .hInit)

def hInsert (htable : HTable α) (node : HNode α) : Except Fault (HTable α) :=
  let pos := node.hcode.toNat &&& htable.mask
  match htable.table with
  | none => .error .nullDeref
  | some table =>
      match table[pos]? with
      | none => .error .outOfBounds
      | some next =>
          .ok { htable with
            table := some (table.set pos (node :: next))
            size := htable.size + 1 }

/-- The key of a lookup is its hash code together with `cmp (·, key)`. -/
def hLookup (htable : HTable α) (hcode : UInt64) (cmp : HNode α → Bool) :
    Except Fault (Option Slot) :=
  match htable.table with
  | none => .ok none
  | some table =>
      let pos := hcode.toNat &&& htable.mask
      match table[pos]? with
      | none => .error .outOfBounds
      | some chain =>
          .ok ((chain.findIdx? cmp).map fun place => ⟨pos, place⟩)

def HTable.deref (htable : HTable α) (slot : Slot) : Option (HNode α) := do
  let table ← htable.table
  let chain ← table[slot.bucket]?
  chain[slot.place]?

def hDetach (htable : HTable α) (slot : Slot) :
    Except Fault (HNode α × HTable α) :=
  match htable.table with
  | none => .error .nullDeref
  | some table =>
      match table[slot.bucket]? with
      | none => .error .outOfBounds
      | some chain =>
          match chain[slot.place]? with
          | none => .error .nullDeref
          | some node =>
              .ok (node,
                { htable with
                  table := some (table.set slot.bucket (chain.eraseIdx slot.place))
                  size := htable.size - 1 })

/-- Visit every node of the table, bucket by bucket. -/
def hScan {β : Type} (htable : HTable α) (visit : β → HNode α → β) (arg : β) : β :=
  if htable.size = 0 then arg
  else
    ((htable.table.getD []).take (htable.mask + 1)).foldl
      (fun acc chain => chain.foldl visit acc) arg

def hmSize (hmap : HMap α) : Nat :=
  hmap.htTo.size + hmap.htFrom.size

/-- `h_insert(&hmap->ht_to, h_detach(&hmap->ht_from, from))` on the first node
of the bucket at `resizing_pos`. -/
def hmMigrateOne (hmap : HMap α) : Except Fault (HMap α) := do
  let (node, htFrom) ← hDetach hmap.htFrom ⟨hmap.resizingPos, 0⟩
  let htTo ← hInsert hmap.htTo node
  pure { hmap with htTo := htTo, htFrom := htFrom }

def hmHelpResizingLoop : Nat → Nat → HMap α → Except Fault (HMap α)
  | 0, _, _ => .error .spin
  | fuel + 1, workDone, hmap =>
      if workDone < kResizingWork ∧ hmap.htFrom.size > 0 then
        match hmap.htFrom.deref ⟨hmap.resizingPos, 0⟩ with
        -- bucket empty: `continue`, with `resizing_pos` left where it is
        | none => hmHelpResizingLoop fuel workDone hmap
        | some _ => do
            let hmap ← hmMigrateOne hmap
            hmHelpResizingLoop fuel (workDone + 1) hmap
      else
        .ok hmap

def hmHelpResizing (fuel : Nat) (hmap : HMap α) : Except Fault (HMap α) :=
  match hmap.htFrom.table with
  | none => .ok hmap
  | some _ => do
      let hmap ← hmHelpResizingLoop fuel 0 hmap
      if hmap.htFrom.size = 0 then
        pure { hmap with htFrom := {} }
      else
        pure hmap

def hmLookup (fuel : Nat) (hmap : HMap α) (hcode : UInt64)
    (cmp : HNode α → Bool) : Except Fault (HMap α × Option (HNode α)) := do
  let hmap ← hmHelpResizing fuel hmap
  match ← hLookup hmap.htTo hcode cmp with
  | some slot => pure (hmap, hmap.htTo.deref slot)
  | none =>
      match ← hLookup hmap.htFrom hcode cmp with
      | some slot => pure (hmap, hmap.htFrom.deref slot)
      | none => pure (hmap, none)

def hmStartResizing (hmap : HMap α) : Except Fault (HMap α) :=
  match hmap.htFrom.table with
  | some _ => .error (.assertion .hmStartResizing)
  | none => do
      let htTo ← hInit ((hmap.htTo.mask + 1) * 2)
      pure { htTo := htTo, htFrom := hmap.htTo, resizingPos := 0 }

/-- `if (!hmap->ht_to.table) h_init(&hmap->ht_to, 4)` -/
def hmInitTo (hmap : HMap α) : Except Fault (HTable α) :=
  match hmap.htTo.table with
  | none => hInit 4
  | some _ => .ok hmap.htTo

/-- The part of `hm_insert` before it calls `hm_help_resizing`. -/
def hmInsertNode (hmap : HMap α) (node : HNode α) : Except Fault (HMap α) := do
  let htTo ← hmInitTo hmap
  let htTo ← hInsert htTo node
  let hmap := { hmap with htTo := htTo }
  match hmap.htFrom.table with
  | some _ => pure hmap
  | none =>
      let loadFactor := hmap.htTo.size / (hmap.htTo.mask + 1)
      if loadFactor ≥ kMaxLoadFactor then hmStartResizing hmap else pure hmap

def hmInsert (fuel : Nat) (hmap : HMap α) (node : HNode α) :
    Except Fault (HMap α) := do
  let hmap ← hmInsertNode hmap node
  hmHelpResizing fuel hmap

def hmPop (fuel : Nat) (hmap : HMap α) (hcode : UInt64)
    (cmp : HNode α → Bool) : Except Fault (HMap α × Option (HNode α)) := do
  let hmap ← hmHelpResizing fuel hmap
  match ← hLookup hmap.htTo hcode cmp with
  | some slot =>
      let (node, htTo) ← hDetach hmap.htTo slot
      pure ({ hmap with htTo := htTo }, some node)
  | none =>
      match ← hLookup hmap.htFrom hcode cmp with
      | some slot =>
          let (node, htFrom) ← hDetach hmap.htFrom slot
          pure ({ hmap with htFrom := htFrom }, some node)
      | none => pure (hmap, none)

/-- The iterations of a migration loop that ends: one for each node of the
quota and the last test. -/
def hmFuel : Nat := kResizingWork + 1

/-- A call of one of the three operations of the map. -/
inductive HmCall (α : Type)
  | insert (node : HNode α)
  | lookup (hcode : UInt64) (cmp : HNode α → Bool)
  | pop (hcode : UInt64) (cmp : HNode α → Bool)

def HmCall.exec (fuel : Nat) (hmap : HMap α) :
    HmCall α → Except Fault (HMap α × Option (HNode α))
  | .insert node => do
      let hmap ← hmInsert fuel hmap node
      pure (hmap, none)
  | .lookup hcode cmp => hmLookup fuel hmap hcode cmp
  | .pop hcode cmp => hmPop fuel hmap hcode cmp

end RedisC
