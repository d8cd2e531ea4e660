import VeloCore.Primitives.Eff
import VeloCore.Primitives.Prefix
import VeloCore.Objects.Handle
import Mathlib.Data.Finmap
import Mathlib.Data.List.Sort

open List

-- `NodeId` is an index into the arena.
abbrev NodeId := Nat

-- The hit counts of the nodes are left out: they are written but never read.
structure Node where
  edge : List TokenId := []
  children : Finmap (fun _ : TokenId => NodeId) := ∅
  handle : Option KvCacheHandle := none
  lastAccessTick : Nat := 0

structure CacheInsert where
  insertedTokens : Nat
  replaced : Option KvCacheHandle
  handle : KvCacheHandle
deriving DecidableEq, Repr

structure CacheEviction where
  evicted : List KvCacheHandle
deriving DecidableEq, Repr

-- Token counts are `usize` and are counted in `Nat`; `clock` is a `u64` that saturates.
structure RadixCache where
  nodes : List Node
  capacityTokens : Option Nat
  residentTokens : Nat
  clock : Nat

namespace RadixCache

def new : RadixCache where
  nodes := [{}]
  capacityTokens := none
  residentTokens := 0
  clock := 1

def withCapacityTokens (capacityTokens : Nat) : RadixCache :=
  { new with capacityTokens := some capacityTokens }

def tick (c : RadixCache) : RadixCache :=
  { c with clock := min (c.clock + 1) (2 ^ 64 - 1) }

def modifyNode (id : NodeId) (g : Node → Node) (c : RadixCache) : RadixCache :=
  { c with nodes := c.nodes.modify id g }

def touch (id : NodeId) (tick : Nat) : RadixCache → RadixCache :=
  modifyNode id fun node => { node with lastAccessTick := tick }

def setHandle (id : NodeId) (handle : Option KvCacheHandle) : RadixCache → RadixCache :=
  modifyNode id fun node => { node with handle }

def setEdge (id : NodeId) (edge : List TokenId) : RadixCache → RadixCache :=
  modifyNode id fun node => { node with edge }

def setChild (id : NodeId) (first : TokenId) (childId : NodeId) : RadixCache → RadixCache :=
  modifyNode id fun node => { node with children := node.children.insert first childId }

def pushNode (node : Node) (c : RadixCache) : RadixCache :=
  { c with nodes := c.nodes ++ [node] }

-- The resident tokens after `handle` took the place of `replaced`.
def account (replaced : Option KvCacheHandle) (handle : KvCacheHandle) (c : RadixCache) :
    RadixCache :=
  { c with
    residentTokens := c.residentTokens - (replaced.map (·.tokenLen)).getD 0 + handle.tokenLen }

def dropHandle (id : NodeId) (handle : KvCacheHandle) (c : RadixCache) : RadixCache :=
  { c.setHandle id none with residentTokens := c.residentTokens - handle.tokenLen }

def len (c : RadixCache) : Nat :=
  (c.nodes.filter (·.handle.isSome)).length

def handles (c : RadixCache) : List KvCacheHandle :=
  c.nodes.filterMap (·.handle)

-- The entries that an eviction goes through: the nodes with a handle, the coldest first. The sort of
-- the source is stable, and so is this one.
def coldest (c : RadixCache) : List (Nat × NodeId × KvCacheHandle) :=
  (c.nodes.zipIdx.filterMap fun (node, id) => node.handle.map (node.lastAccessTick, id, ·))
    |>.insertionSort (·.1 ≤ ·.1)

def evictLoop (tokensToEvict : Nat) :
    List (Nat × NodeId × KvCacheHandle) → Nat → RadixCache → List KvCacheHandle × RadixCache
  | [], _, c => ([], c)
  | (_, id, handle) :: handles, freed, c =>
    if tokensToEvict ≤ freed then
      ([], c)
    else if (c.nodes[id]?.bind (·.handle)) = some handle then
      let (evicted, c) :=
        evictLoop tokensToEvict handles (freed + handle.tokenLen) (c.dropHandle id handle)
      (handle :: evicted, c)
    else
      evictLoop tokensToEvict handles freed c

def evictColdest (tokensToEvict : Nat) (c : RadixCache) : CacheEviction × RadixCache :=
  let (evicted, c) := evictLoop tokensToEvict c.coldest 0 c
  ({ evicted }, c)

def evictToCapacity (c : RadixCache) : RadixCache :=
  match c.capacityTokens with
  | none => c
  | some capacity =>
    if c.residentTokens ≤ capacity then
      c
    else
      (c.evictColdest (c.residentTokens - capacity)).2

def setCapacityTokens (capacityTokens : Option Nat) (c : RadixCache) : RadixCache :=
  evictToCapacity { c with capacityTokens }

-- The operations that follow the links of the arena. They return no errors, but indexing may panic
-- and an empty edge would be followed for ever.
section Links

variable {ε : Type}

def nodeAt (id : NodeId) : Eff RadixCache ε Node := do
  Eff.index (← Eff.get).nodes id

-- The values that the loop of `lookup` works on: the node reached, the number of tokens matched on
-- the way to it and the last entry that was passed.
structure Cursor where
  node : NodeId
  matched : Nat
  best : Option (Nat × KvCacheHandle)

def lookupStep (tokens : List TokenId) (accessTick : Nat) (cursor : Cursor) :
    Eff RadixCache ε (Cursor ⊕ Option (Nat × KvCacheHandle)) := do
  match tokens.drop cursor.matched with
  | [] => pure (.inr cursor.best)
  | first :: rest =>
    match (← nodeAt cursor.node).children.lookup first with
    | none => pure (.inr cursor.best)
    | some childId =>
      let child ← nodeAt childId
      let matched := commonPrefixLen (first :: rest) child.edge
      if matched < child.edge.length then
        pure (.inr cursor.best)
      else
        Eff.modify (touch childId accessTick)
        pure <| .inl {
          node := childId
          matched := cursor.matched + matched
          best := (child.handle.map (cursor.matched + matched, ·)).or cursor.best }

def lookup (tokens : List TokenId) : Eff RadixCache ε CacheLookup := do
  Eff.modify tick
  let accessTick := (← Eff.get).clock
  let root ← nodeAt 0
  Eff.modify (touch 0 accessTick)
  let best ← Eff.loop (lookupStep tokens accessTick) (tokens.length + 1)
    { node := 0, matched := 0, best := root.handle.map (0, ·) }
  pure {
    matchedTokens := (best.map (·.1)).getD 0
    handle := best.map (·.2) }

def splitChild (parentId childId : NodeId) (splitAt : Nat) : Eff RadixCache ε NodeId := do
  let child ← nodeAt childId
  let oldFirst ← Eff.index child.edge 0
  let suffix := child.edge.drop splitAt
  Eff.modify (setEdge childId suffix)
  let newFirst ← Eff.index suffix 0
  let splitId := (← Eff.get).nodes.length
  let clock := (← Eff.get).clock
  Eff.modify (pushNode {
    edge := child.edge.take splitAt
    children := Finmap.singleton newFirst childId
    lastAccessTick := clock })
  Eff.modify (setChild parentId oldFirst splitId)
  pure splitId

def insertFrom : Nat → NodeId → List TokenId → Eff RadixCache ε NodeId
  | 0, _, _ => fun c => (.error .unfinished, c)
  | _ + 1, parentId, [] => pure parentId
  | fuel + 1, parentId, first :: rest => do
    match (← nodeAt parentId).children.lookup first with
    | none =>
      let nodeId := (← Eff.get).nodes.length
      let clock := (← Eff.get).clock
      Eff.modify (pushNode { edge := first :: rest, lastAccessTick := clock })
      Eff.modify (setChild parentId first nodeId)
      pure nodeId
    | some childId =>
      let child ← nodeAt childId
      let common := commonPrefixLen (first :: rest) child.edge
      if common = child.edge.length then
        insertFrom fuel childId ((first :: rest).drop common)
      else
        let splitId ← splitChild parentId childId common
        if common = (first :: rest).length then
          pure splitId
        else
          insertFrom fuel splitId ((first :: rest).drop common)

-- The part of `insert` before its eviction step.
def place (tokens : List TokenId) (handle : KvCacheHandle) :
    Eff RadixCache ε (Option KvCacheHandle) := do
  Eff.modify tick
  let clock := (← Eff.get).clock
  Eff.modify (touch 0 clock)
  let leaf ← insertFrom (tokens.length + 1) 0 tokens
  let replaced := (← nodeAt leaf).handle
  Eff.modify (setHandle leaf (some handle))
  Eff.modify (touch leaf clock)
  Eff.modify (account replaced handle)
  pure replaced

def insert (tokens : List TokenId) (handle : KvCacheHandle) : Eff RadixCache ε CacheInsert := do
  if tokens.length ≠ handle.tokenLen then
    Eff.panic
  else
    let replaced ← place tokens handle
    Eff.modify evictToCapacity
    pure { insertedTokens := tokens.length, replaced, handle }

end Links
end RadixCache
