import Mathlib.Tactic

abbrev TokenId := UInt32

-- `block_id` is a `u64` and `token_len` a `usize`. Both are counted in `Nat`: the engine numbers the
-- blocks consecutively, so a block id stays below 2^64 as long as fewer than 2^64 - 1 blocks were
-- ever allocated.
structure KvCacheHandle where
  blockId : Nat
  tokenLen : Nat
deriving DecidableEq, Repr

structure CacheLookup where
  matchedTokens : Nat
  handle : Option KvCacheHandle
deriving DecidableEq, Repr
