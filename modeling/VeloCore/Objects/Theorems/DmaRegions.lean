import VeloCore.Objects.Theorems.Nixl

open List

namespace DmaBlockManager

-- A call that fills a region.
inductive Fill
  | writeAndSerialize (handle : KvCacheHandle) (payload : List UInt8)
  | receiveInto (wire : List UInt8)
deriving DecidableEq

-- What it returns
inductive Filled
  | wire (bytes : List UInt8)
  | received (received : Option (KvCacheHandle × Nat))
deriving DecidableEq

inductive Call
  | acquire
  | release (idx : Nat)
  | fill (idx : Nat) (f : Fill)
deriving DecidableEq

namespace Fill

def run (idx : Nat) : Fill → Eff DmaBlockManager Empty Filled
  | writeAndSerialize handle payload => do return .wire (← DmaBlockManager.writeAndSerialize idx handle payload)
  | receiveInto wire => do return .received (← DmaBlockManager.receiveInto idx wire)

-- Every byte of the region is one that the call has written.
def Covers (blockBytes : Nat) : Fill → Prop
  | writeAndSerialize .. => True
  | receiveInto wire => ∀ handle payload, deserializeBlock wire = some (handle, payload) → blockBytes ≤ payload.length

end Fill

namespace Filled

-- A wire buffer that could not be read fills nothing.
def Successful : Filled → Prop
  | received none => False
  | received (some _) | wire _ => True

end Filled

-- The manager after a call, whatever the call returned
def after (m : DmaBlockManager) : Call → DmaBlockManager
  | .acquire    => (acquire m).2
  | .release idx => (release idx m).2
  | .fill idx f => (f.run idx m).2

def history (blockBytes poolSize : Nat) (calls : List Call) : DmaBlockManager :=
  calls.foldl after (new blockBytes poolSize)

-- Two histories that end with the same successful fill leave the same bytes and return the same value.
def NoLeak (blockBytes idx : Nat) (f : Fill) : Prop :=
  ∀ poolSize calls poolSize' calls' filled filled' m m',
    f.run idx (history blockBytes poolSize calls) = (.ok filled, m) → filled.Successful →
    f.run idx (history blockBytes poolSize' calls') = (.ok filled', m') → filled'.Successful →
    m.regions[idx]? = m'.regions[idx]? ∧ filled = filled'

section Fills

variable {m m' : DmaBlockManager} {handle : KvCacheHandle} {payload wire : List UInt8} {idx : Nat}

theorem acquire_snd_blockBytes : (acquire m).2.blockBytes = m.blockBytes := by
  have ⟨_, _, h, _, hb⟩ := acquire_ok m
  rw [h, hb]

theorem release_snd_blockBytes : (release idx m).2.blockBytes = m.blockBytes := by
  unfold release
  split <;> rfl

-- What is written does not depend on what was in the region.
theorem writeAndSerialize_eq_ok (h : writeAndSerialize idx handle payload m = (.ok wire, m')) :
    wire = serializeBlock handle (payload.take m.blockBytes) ∧
      m'.regions[idx]? = some (payload.take m.blockBytes ++ replicate (m.blockBytes - payload.length) 0) := by
  unfold writeAndSerialize at h
  split at h
  case h_1 => cases h
  case h_2 old hold =>
    have hlen := m.region_length old (mem_of_getElem? hold)
    have hidx := (List.getElem?_eq_some_iff.mp hold).1
    have htake : payload.take (min payload.length m.blockBytes) = payload.take m.blockBytes := by
      rw [min_comm, ← take_take, take_length]
    have hsub : m.blockBytes - min payload.length m.blockBytes = m.blockBytes - payload.length := by omega
    cases h
    refine ⟨?_, ?_⟩
    case refine_1 => rw [take_left' (by simp), htake]
    case refine_2 => rw [getElem?_set_self hidx, hlen, hsub, htake]

-- Behind the payload, what was in the region stays there.
theorem receiveInto_eq_ok {received : KvCacheHandle × Nat} (h : receiveInto idx wire m = (.ok (some received), m')) :
    ∃ handle payload old, deserializeBlock wire = some (handle, payload) ∧ m.regions[idx]? = some old ∧
      old.length = m.blockBytes ∧ received = (handle, min payload.length m.blockBytes) ∧
      m'.regions[idx]? = some (payload.take m.blockBytes ++ old.drop payload.length) := by
  unfold receiveInto at h
  split at h
  case h_1 => cases h
  case h_2 handle payload hwire =>
    split at h
    case h_1 => cases h
    case h_2 old hold =>
      have hlen := m.region_length old (mem_of_getElem? hold)
      have hidx := (List.getElem?_eq_some_iff.mp hold).1
      have htake : payload.take (min payload.length m.blockBytes) = payload.take m.blockBytes := by
        rw [min_comm, ← take_take, take_length]
      have hdrop : old.drop (min payload.length m.blockBytes) = old.drop payload.length := by
        rcases Nat.le_total payload.length m.blockBytes with hle | hle
        case inl => rw [Nat.min_eq_left hle]
        case inr => rw [Nat.min_eq_right hle, drop_of_length_le (by omega), drop_of_length_le (by omega)]
      cases h
      exact ⟨handle, payload, old, hwire, hold, hlen, rfl, by rw [getElem?_set_self hidx, htake, hdrop]⟩

theorem receiveInto_of_some {old : List UInt8} (hold : m.regions[idx]? = some old)
    (hwire : deserializeBlock wire = some (handle, payload)) :
    ∃ m', receiveInto idx wire m = (.ok (some (handle, min payload.length m.blockBytes)), m') := by
  unfold receiveInto
  simp only [hwire]
  split
  case h_1 hnone => simp [hold] at hnone
  case h_2       => exact ⟨_, rfl⟩

theorem receiveInto_snd_blockBytes : (receiveInto idx wire m).2.blockBytes = m.blockBytes := by
  unfold receiveInto
  split
  case h_1 => rfl
  case h_2 => split <;> rfl

theorem writeAndSerialize_snd_blockBytes : (writeAndSerialize idx handle payload m).2.blockBytes = m.blockBytes := by
  unfold writeAndSerialize
  split <;> rfl

end Fills

section Histories

variable {m : DmaBlockManager} {blockBytes poolSize idx : Nat} {calls : List Call} {f : Fill} {call : Call}

theorem after_blockBytes : (m.after call).blockBytes = m.blockBytes := by
  cases call
  case acquire => exact acquire_snd_blockBytes
  case release => exact release_snd_blockBytes
  case fill idx f =>
    cases f
    case writeAndSerialize => exact (congrArg blockBytes (Eff.bind_pure_snd _)).trans writeAndSerialize_snd_blockBytes
    case receiveInto       => exact (congrArg blockBytes (Eff.bind_pure_snd _)).trans receiveInto_snd_blockBytes

theorem history_blockBytes : (history blockBytes poolSize calls).blockBytes = blockBytes := by
  suffices h : ∀ m : DmaBlockManager, (calls.foldl after m).blockBytes = m.blockBytes from h _
  intro m
  induction calls generalizing m
  case nil => rfl
  case cons call calls hi => rw [foldl_cons, hi, after_blockBytes]

-- The region a history leaves is the one that the next call finds, as long as no call fills it.
theorem acquire_snd_getElem? (h : idx < m.regions.length) : (acquire m).2.regions[idx]? = m.regions[idx]? := by
  unfold acquire
  split
  case h_1 => exact getElem?_append_left h
  case h_2 => rfl

theorem release_snd_getElem? {i : Nat} : (release i m).2.regions[idx]? = m.regions[idx]? := by
  unfold release
  split <;> rfl

theorem run_writeAndSerialize_eq_ok {handle : KvCacheHandle} {payload : List UInt8} {filled : Filled} {m' : DmaBlockManager}
    (h : (Fill.writeAndSerialize handle payload).run idx m = (.ok filled, m')) :
    filled = .wire (serializeBlock handle (payload.take m.blockBytes)) ∧
      m'.regions[idx]? = some (payload.take m.blockBytes ++ replicate (m.blockBytes - payload.length) 0) := by
  have ⟨wire, m₁, hwrite, hpure⟩ := Eff.bind_eq_ok_iff.mp h
  have ⟨hwire, hregion⟩ := writeAndSerialize_eq_ok hwrite
  cases hpure
  exact ⟨congrArg _ hwire, hregion⟩

theorem run_receiveInto_eq_ok {wire : List UInt8} {filled : Filled} {m' : DmaBlockManager}
    (h : (Fill.receiveInto wire).run idx m = (.ok filled, m')) (hs : filled.Successful) :
    ∃ handle payload old, deserializeBlock wire = some (handle, payload) ∧ m.regions[idx]? = some old ∧
      old.length = m.blockBytes ∧ filled = .received (some (handle, min payload.length m.blockBytes)) ∧
      m'.regions[idx]? = some (payload.take m.blockBytes ++ old.drop payload.length) := by
  have ⟨received, m₁, hreceive, hpure⟩ := Eff.bind_eq_ok_iff.mp h
  cases hpure
  cases received
  case none => exact hs.elim
  case some received =>
    have ⟨handle, payload, old, hwire, hold, hlen, hvalue, hregion⟩ := receiveInto_eq_ok hreceive
    exact ⟨handle, payload, old, hwire, hold, hlen, by rw [hvalue], hregion⟩

-- A fill that covers the region leaves nothing of what was there.
theorem noLeak_of_covers (h : f.Covers blockBytes) : NoLeak blockBytes idx f := by
  intro poolSize calls poolSize' calls' filled filled' m m' hrun hs hrun' hs'
  cases f
  case writeAndSerialize handle payload =>
    have ⟨hvalue, hregion⟩ := run_writeAndSerialize_eq_ok hrun
    have ⟨hvalue', hregion'⟩ := run_writeAndSerialize_eq_ok hrun'
    rw [history_blockBytes] at hvalue hregion hvalue' hregion'
    exact ⟨hregion.trans hregion'.symm, hvalue.trans hvalue'.symm⟩
  case receiveInto wire =>
    have ⟨handle, payload, old, hwire, _, hlen, hvalue, hregion⟩ := run_receiveInto_eq_ok hrun hs
    have ⟨_, _, old', hwire', _, hlen', hvalue', hregion'⟩ := run_receiveInto_eq_ok hrun' hs'
    cases hwire.symm.trans hwire'
    rw [history_blockBytes] at hlen hvalue hregion hlen' hvalue' hregion'
    have hle := h handle payload hwire
    rw [drop_of_length_le (by omega)] at hregion hregion'
    exact ⟨hregion.trans hregion'.symm, hvalue.trans hvalue'.symm⟩

-- A region that was handed out for the first time, and one that held a block of ones before
def fresh : List Call :=
  [.acquire]

def reused (blockBytes idx : Nat) : List Call :=
  [.acquire, .fill idx (.writeAndSerialize ⟨1, 0⟩ (replicate blockBytes 1)), .release idx, .acquire]

theorem history_fresh : (history blockBytes (idx + 1) fresh).regions[idx]? = some (replicate blockBytes 0) := by
  have hnew : idx < (new blockBytes (idx + 1)).regions.length := by simp [new]
  rw [history, fresh, foldl_cons, foldl_nil, after, acquire_snd_getElem? hnew]
  simp [new]

theorem history_reused :
    (history blockBytes (idx + 1) (reused blockBytes idx)).regions[idx]? = some (replicate blockBytes 1) := by
  have hnew : idx < (new blockBytes (idx + 1)).regions.length := by simp [new]
  have hacquired : (acquire (new blockBytes (idx + 1))).2.regions[idx]? = some (replicate blockBytes 0) := history_fresh
  have hbytes : (acquire (new blockBytes (idx + 1))).2.blockBytes = blockBytes := acquire_snd_blockBytes
  simp only [history, reused, foldl_cons, foldl_nil, after]
  generalize (acquire (new blockBytes (idx + 1))).2 = m at hacquired hbytes ⊢
  have hidx := (List.getElem?_eq_some_iff.mp hacquired).1
  have ⟨m₁, hwrite, _, _⟩ := writeAndSerialize_ok hidx ⟨1, 0⟩ (replicate blockBytes 1)
  have ⟨_, hregion⟩ := writeAndSerialize_eq_ok hwrite
  have hones : (release idx m₁).2.regions[idx]? = some (replicate blockBytes 1) := by
    rw [release_snd_getElem?, hregion, hbytes]
    simp
  rw [Fill.run, Eff.bind_pure_snd, hwrite, acquire_snd_getElem? (List.getElem?_eq_some_iff.mp hones).1, hones]

theorem covers_of_noLeak (h : NoLeak blockBytes idx f) : f.Covers blockBytes := by
  cases f
  case writeAndSerialize => trivial
  case receiveInto wire =>
    intro handle payload hwire
    by_contra hlt
    rw [Nat.not_le] at hlt
    have ⟨m, hm⟩ := receiveInto_of_some (history_fresh : (history blockBytes (idx + 1) _).regions[idx]? = _) hwire
    have ⟨m', hm'⟩ := receiveInto_of_some (history_reused : (history blockBytes (idx + 1) _).regions[idx]? = _) hwire
    have ⟨_, payload₁, old, hwire₁, hold, _, _, hregion⟩ := receiveInto_eq_ok hm
    have ⟨_, payload₂, old', hwire₂, hold', _, _, hregion'⟩ := receiveInto_eq_ok hm'
    cases hwire.symm.trans hwire₁
    cases hwire.symm.trans hwire₂
    cases history_fresh.symm.trans hold
    cases history_reused.symm.trans hold'
    have ⟨heq, _⟩ := h _ _ _ _ _ _ m m' (Eff.bind_ok hm) trivial (Eff.bind_ok hm') trivial
    rw [hregion, hregion', history_blockBytes, history_blockBytes, Option.some_inj, append_cancel_left_eq, drop_replicate,
      drop_replicate, replicate_inj] at heq
    have hne : (0 : UInt8) ≠ 1 := by decide
    rcases heq.right with hzero | hone
    case inl => omega
    case inr => exact hne hone

end Histories

-- A short block leaves the bytes of an earlier one behind it.
theorem not_noLeak : ¬ NoLeak 2 0 (.receiveInto (serializeBlock ⟨7, 1⟩ [5])) := by
  intro h
  have hdiff := (h 1 [.acquire] 1
    [.acquire, .fill 0 (.writeAndSerialize ⟨1, 1⟩ [8, 9]), .release 0, .acquire] _ _ _ _ rfl trivial rfl trivial).left
  revert hdiff
  decide

theorem noLeak_iff (blockBytes idx : Nat) (f : Fill) : NoLeak blockBytes idx f ↔ f.Covers blockBytes :=
  ⟨covers_of_noLeak, noLeak_of_covers⟩

end DmaBlockManager
