import VeloCore.Objects.Metal.Theorems.KvLayers
import VeloCore.Objects.Backend.Theorems.LlamaSequence
import VeloCore.Objects.Gguf.Theorems.Loader
import VeloCore.Objects.Gguf.Header

open List Gguf Eff

-- The keys and values that the head `h` looks at on the CPU. There is nothing where the code divides by zero.
def kvHeadCpu (nHead nHeadKv h : Nat) : Option Nat :=
  if nHead = 0 then none else some (h * nHeadKv / nHead)

-- The same of the kernels
def kvHeadMetal (nHead nHeadKv headIdx : Nat) : Option Nat :=
  if uint nHeadKv = 0 ∨ uint nHead / uint nHeadKv = 0 then none else some (headIdx / (uint nHead / uint nHeadKv))

section Reads

-- The head of the attention on the CPU looks at the rows of this head only,
theorem ModelLoader.WeightStore.attendHead_kvHeadCpu {φ : Type} [F32 φ] {store : WeightStore} {layer pos : Nat}
    (hk : kvHeadCpu store.modelMeta.nHead store.modelMeta.nHeadKv h = some k) (q xAttn : List φ) :
    Alike (KvCache.SameHead store.modelMeta layer pos k) (KvCache.SameHead store.modelMeta layer pos k)
      (store.attendHead layer pos h q xAttn) := by
  have ⟨_, heq⟩ := (ite_eq_iff.mp hk).resolve_left fun h => nomatch h.right
  exact WeightStore.attendHead_sameHead (Option.some.inj heq) q xAttn

-- and that of the kernel reads the cells of this one.
theorem KvDims.mem_headCells_kvHeadMetal {dims : KvDims} {row : List Nat}
    (hk : kvHeadMetal dims.nHead dims.nHeadKv headIdx = some k) :
    c ∈ (dims.args row pos).headCells (uint dims.nHead) headIdx ↔
      ∃ t < uint (uint pos + 1), ∃ d < uint dims.headDim, c = (dims.args row pos).headOffset k t + d := by
  have ⟨_, heq⟩ := (ite_eq_iff.mp hk).resolve_left fun h => nomatch h.right
  cases heq
  simp only [KvArgs.headCells, args, mem_flatMap, mem_map, mem_range]
  simp only [eq_comm]

end Reads

-- Both paths take the keys of the same head, of which there is one.
def HeadsAgree (nHead nHeadKv : Nat) : Prop :=
  ∀ h < nHead, ∃ k < nHeadKv, kvHeadCpu nHead nHeadKv h = some k ∧ kvHeadMetal nHead nHeadKv h = some k

theorem headsAgree_iff {n m : Nat} (hpos : 0 < n) (hn : n < 2 ^ 32) (hm : m < 2 ^ 32) : HeadsAgree n m ↔ m ∣ n := by
  unfold HeadsAgree kvHeadCpu kvHeadMetal
  rw [uint_eq hn, uint_eq hm]
  simp only [if_neg hpos.ne']
  constructor
  case mp =>
    intro h
    have ⟨k, hk, hcpu, hmetal⟩ := h (n - 1) (by omega)
    split at hmetal <;> try contradiction
    case isFalse hne =>
      rw [not_or] at hne
      have hm0 : 0 < m := Nat.pos_of_ne_zero hne.left
      have hq : 0 < n / m := Nat.pos_of_ne_zero hne.right
      -- The last head looks past the keys if there is a rest.
      by_contra hd
      have hlt : n / m * m < n :=
        Nat.lt_of_le_of_ne (Nat.div_mul_le_self n m) fun heq => hd ⟨n / m, by rw [Nat.mul_comm, heq]⟩
      have hge : m ≤ (n - 1) / (n / m) := (Nat.le_div_iff_mul_le hq).mpr (by rw [Nat.mul_comm]; omega)
      rw [Option.some.inj hmetal] at hge
      omega
  case mpr =>
    intro hd h hh
    have hm0 : 0 < m := Nat.pos_of_dvd_of_pos hd hpos
    have hq : 0 < n / m := Nat.div_pos (Nat.le_of_dvd hpos hd) hm0
    rw [if_neg (by omega)]
    exact ⟨_, (exists_head_iff hpos hd).mp ⟨h, hh, rfl⟩, congrArg some (mul_div_eq_div_div hm0 hpos hd), rfl⟩

namespace ModelLoader

-- Loading does not see to it that the heads can be shared out evenly.
theorem headsAgree_iff_of_load {cap : Capacity} {s s' : Reader} {store : WeightStore}
    (h : loadGguf cap s = (.ok store, s')) :
    HeadsAgree store.modelMeta.nHead store.modelMeta.nHeadKv ↔ store.modelMeta.nHeadKv ∣ store.modelMeta.nHead :=
  have ⟨l⟩ := loadGguf_ok h
  headsAgree_iff l.sane.nHead_pos l.sane.nHead_lt l.sane.nHeadKv_lt

-- A model of one layer with two heads of one number
def groupsFile (nHeadKv : UInt32) : List UInt8 :=
  (writeU32 magic ++ writeU32 3) ++ (writeU64 12 ++ (writeU64 6 ++
    ((writeString "llama.vocab_size" ++ (writeU32 4 ++ writeU32 1)) ++
     (writeString "llama.embedding_length" ++ (writeU32 4 ++ writeU32 2)) ++
     (writeString "llama.block_count" ++ (writeU32 4 ++ writeU32 1)) ++
     (writeString "llama.attention.head_count" ++ (writeU32 4 ++ writeU32 2)) ++
     (writeString "llama.attention.head_count_kv" ++ (writeU32 4 ++ writeU32 nHeadKv)) ++
     (writeString "llama.feed_forward_length" ++ (writeU32 4 ++ writeU32 1)) ++
     (writeDecl ⟨"token_embd.weight", [2, 1], .f32, 0⟩ ++
      writeDecl ⟨"layers.0.attention_norm.weight", [2], .f32, 0⟩ ++
      writeDecl ⟨"layers.0.attention.wq.weight", [2, 2], .f32, 0⟩ ++
      writeDecl ⟨"layers.0.attention.wk.weight", [2, nHeadKv.toUInt64], .f32, 0⟩ ++
      writeDecl ⟨"layers.0.attention.wv.weight", [2, nHeadKv.toUInt64], .f32, 0⟩ ++
      writeDecl ⟨"layers.0.attention.wo.weight", [2, 2], .f32, 0⟩ ++
      writeDecl ⟨"layers.0.ffn_norm.weight", [2], .f32, 0⟩ ++
      writeDecl ⟨"layers.0.feed_forward.w1.weight", [2, 1], .f32, 0⟩ ++
      writeDecl ⟨"layers.0.feed_forward.w2.weight", [1, 2], .f32, 0⟩ ++
      writeDecl ⟨"layers.0.feed_forward.w3.weight", [2, 1], .f32, 0⟩ ++
      writeDecl ⟨"output_norm.weight", [2], .f32, 0⟩ ++
      writeDecl ⟨"output.weight", [2, 1], .f32, 0⟩)))) ++ replicate 64 0

theorem exists_groups {bytes : List UInt8} (h : (loadGguf cap (.new bytes)).1.map (fun store =>
      (store.modelMeta.nHead, store.modelMeta.nHeadKv)) = .ok (n, m)) :
    ∃ store s', loadGguf cap (.new bytes) = (.ok store, s') ∧ store.modelMeta.nHead = n ∧ store.modelMeta.nHeadKv = m := by
  match hr : loadGguf cap (.new bytes) with
  | (.error e, _) => rw [hr] at h; cases h
  | (.ok store, s') =>
    rw [hr] at h
    have h := Prod.mk.inj (Except.ok.inj h)
    exact ⟨store, s', rfl, h.left, h.right⟩

theorem headsAgree_of_one : ∃ store s', loadGguf ⟨4096, 16, 16, 16, by decide⟩ (.new (groupsFile 1)) = (.ok store, s') ∧
    HeadsAgree store.modelMeta.nHead store.modelMeta.nHeadKv := by
  have hl : (loadGguf ⟨4096, 16, 16, 16, by decide⟩ (.new (groupsFile 1))).1.map (fun store =>
      (store.modelMeta.nHead, store.modelMeta.nHeadKv)) = .ok (2, 1) := by
    decide +kernel
  have ⟨store, s', h, hn, hm⟩ := exists_groups hl
  exact ⟨store, s', h, (headsAgree_iff_of_load h).mpr (by rw [hn, hm]; decide)⟩

-- More keys than heads: the kernels divide by zero.
theorem exists_heads_disagree : ∃ cap s store s', loadGguf cap s = (.ok store, s') ∧
    ¬HeadsAgree store.modelMeta.nHead store.modelMeta.nHeadKv := by
  have hl : (loadGguf ⟨4096, 16, 16, 16, by decide⟩ (.new (groupsFile 3))).1.map (fun store =>
      (store.modelMeta.nHead, store.modelMeta.nHeadKv)) = .ok (2, 3) := by
    decide +kernel
  have ⟨store, s', h, hn, hm⟩ := exists_groups hl
  refine ⟨_, _, store, s', h, ?_⟩
  rw [hn, hm, headsAgree_iff (by decide) (by decide) (by decide)]
  decide

end ModelLoader
