import VeloCore.Objects.Backend.Theorems.LlamaForward
import VeloCore.Objects.Metal.ShardedModel
import VeloCore.Objects.Metal.Theorems.ShardStrategy
import VeloCore.Objects.Metal.Theorems.Sharding

open List Gguf Sharding

namespace TpModel

namespace LlamaMetalModel

variable (shard : LlamaMetalModel)

def cols (name : TensorName) : Option Nat :=
  (shard.weights.lookup name.text).bind fun w => w.shape.head?

def rows (name : TensorName) : Option Nat :=
  (shard.weights.lookup name.text).bind fun w => w.shape[1]?

def qSize :=
  shard.modelMeta.nHead * shard.modelMeta.headDim

def kvSize :=
  shard.modelMeta.nHeadKv * shard.modelMeta.headDim

-- The sizes that a forward pass takes from the metadata are those of the tensors.
structure Agrees : Prop where
  heads : ∀ l < shard.modelMeta.nLayer, shard.rows (.layer l .wq) = some shard.qSize ∧ shard.cols (.layer l .wo) = some shard.qSize
  keys  : 1 ≤ shard.modelMeta.nHeadKv ∧ ∀ l < shard.modelMeta.nLayer,
    shard.rows (.layer l .wk) = some shard.kvSize ∧ shard.rows (.layer l .wv) = some shard.kvSize
  ff    : ∀ l < shard.modelMeta.nLayer, shard.rows (.layer l .w1) = some shard.modelMeta.nFf ∧
    shard.rows (.layer l .w3) = some shard.modelMeta.nFf ∧ shard.cols (.layer l .w2) = some shard.modelMeta.nFf

end LlamaMetalModel

section Shapes

variable {name : String} {data : List UInt8} {quant : Quantization} {d rank cols rows : Nat} {w : ShardedWeight}

-- A tensor without rows, or without columns, is not split.
theorem column_shape (hd : 0 < d) (h : shardWeight name data [cols, rows] quant d rank .column = .ok w) :
    w.shape = [cols, rows / d] ∧ d ∣ rows ∧ (rows = 0 → d = 1) := by
  by_cases hone : d ≤ 1
  case pos =>
    have hone := Nat.le_antisymm hone hd
    subst hone
    rw [shardWeight_of_le le_rfl] at h
    cases h
    exact ⟨by rw [Nat.div_one], one_dvd _, fun _ => rfl⟩
  case neg =>
    rw [shardWeight_column hone] at h
    have ⟨rows', hrows, hdvd, hzero, hw⟩ := shardColumn_eq_ok h
    have hrows : rows = rows' := by simpa using hrows
    subst hrows
    exact ⟨by rw [hw]; rfl, hdvd, fun h => absurd h hzero⟩

theorem row_shape (hd : 0 < d) (h : shardWeight name data [cols, rows] quant d rank .row = .ok w) :
    w.shape = [cols / d, rows] ∧ d ∣ cols ∧ (cols = 0 → d = 1) := by
  by_cases hone : d ≤ 1
  case pos =>
    have hone := Nat.le_antisymm hone hd
    subst hone
    rw [shardWeight_of_le le_rfl] at h
    cases h
    exact ⟨by rw [Nat.div_one], one_dvd _, fun _ => rfl⟩
  case neg =>
    rw [shardWeight_row hone] at h
    have ⟨⟨hdvd, _, _, hzero⟩, hw⟩ := shardRow_eq_ok h
    exact ⟨by rw [hw], hdvd, fun h => absurd h hzero⟩

end Shapes

theorem okOr_eq_ok {o : Option α} {text : String} (h : okOr o text = .ok a) : o = some a := by
  cases o
  case none => cases h
  case some => cases h; rfl

namespace LlamaTensorParallelModel

variable {m : ModelLoader.ModelMeta} {store : ModelLoader.WeightStore} {d rank : Nat} {device : Device}
  {weights weights' : Finmap fun _ : String => ShardedWeight} {name name' : String} {names : List String}
  {shard : LlamaMetalModel} {devices : List Device} {model : LlamaTensorParallelModel}

-- There is a shard of the tensor among the weights.
def Cut (m : ModelLoader.ModelMeta) (store : ModelLoader.WeightStore) (d rank : Nat)
    (weights : Finmap fun _ : String => ShardedWeight) (name : String) : Prop :=
  ∃ data shape w, store.shape name = some shape ∧ weights.lookup name = some w ∧
    shardWeight name data shape m.quantization d rank (getShardStrategy name) = .ok w

theorem upload_eq_ok (h : upload m store d rank device weights name = .ok weights') : ∃ data shape w,
    store.shape name = some shape ∧ weights' = weights.insert name w ∧
      shardWeight name data shape m.quantization d rank (getShardStrategy name) = .ok w := by
  have ⟨data, _, h⟩ := Except.bind_eq_ok_iff.mp h
  have ⟨shape, hshape, h⟩ := Except.bind_eq_ok_iff.mp h
  have ⟨w, hw, h⟩ := Except.bind_eq_ok_iff.mp h
  split at h
  case isTrue =>
    cases h
    exact ⟨data, shape, w, okOr_eq_ok hshape, rfl, hw⟩
  case isFalse => cases h

-- What is stored stays, or is replaced by the shard of the same tensor.
theorem cut_upload (h : upload m store d rank device weights name = .ok weights') (hc : name' = name ∨ Cut m store d rank weights name') :
    Cut m store d rank weights' name' := by
  have ⟨data, shape, w, hshape, hweights, hw⟩ := upload_eq_ok h
  subst hweights
  by_cases heq : name' = name
  case pos =>
    subst heq
    exact ⟨data, shape, w, hshape, Finmap.lookup_insert _, hw⟩
  case neg =>
    have ⟨data', shape', w', hshape', hlookup', hw'⟩ := hc.resolve_left heq
    exact ⟨data', shape', w', hshape', (Finmap.lookup_insert_of_ne _ heq).trans hlookup', hw'⟩

theorem cut_foldlM (h : names.foldlM (upload m store d rank device) weights = .ok weights')
    (hc : name' ∈ names ∨ Cut m store d rank weights name') : Cut m store d rank weights' name' := by
  induction names generalizing weights
  case nil =>
    cases h
    exact hc.resolve_left not_mem_nil
  case cons name names hi =>
    rw [foldlM_cons] at h
    have ⟨weights₁, hup, h⟩ := Except.bind_eq_ok_iff.mp h
    refine hi h ?_
    rw [mem_cons, or_assoc, or_left_comm] at hc
    exact hc.imp_right (cut_upload hup)

theorem newShard_eq_ok (h : newShard m store d rank names device = .ok shard) :
    shard.modelMeta = shardMeta m d ∧ ∀ name ∈ names, Cut m store d rank shard.weights name := by
  unfold newShard at h
  split at h
  case isTrue => cases h
  case isFalse =>
    split at h
    case h_1 => cases h
    case h_2 =>
      have ⟨weights, hw, h⟩ := Except.bind_eq_ok_iff.mp h
      cases h
      exact ⟨rfl, fun name hn => cut_foldlM hw (.inl hn)⟩

theorem new_eq_ok {order : store.Names} (h : new m store order devices = .ok model) : 0 < devices.length ∧
    model.shards.length = devices.length ∧ ∀ shard ∈ model.shards, shard.modelMeta = shardMeta m devices.length ∧
      ∃ rank, ∀ name ∈ store.index, Cut m store devices.length rank shard.weights name := by
  unfold new at h
  split at h
  case isTrue => cases h
  case isFalse hne =>
    have ⟨shards, hs, h⟩ := Except.bind_eq_ok_iff.mp h
    cases h
    have hmap := Except.mapM_eq_ok_iff.mp hs
    refine ⟨Nat.pos_of_ne_zero hne, by simpa using (congrArg length hmap).symm, fun shard hmem => ?_⟩
    have hmem := mem_map_of_mem (f := Except.ok (ε := Fault String)) hmem
    rw [← hmap, mem_map] at hmem
    have ⟨⟨device, rank⟩, _, hshard⟩ := hmem
    have ⟨hmeta, hcut⟩ := newShard_eq_ok hshard
    exact ⟨hmeta, rank, fun name hn => hcut name (order.mem_iff.mpr hn)⟩

-- The heads of the shards are all of the heads.
theorem heads_iff {n h : Nat} (hd : 0 < d) (hdvd : d ∣ n) (hn : n = 0 → d = 1) :
    n / d = h / d * (n / h) ↔ h ∣ n ∧ d ∣ h := by
  have hmul : n / d = h / d * (n / h) ↔ n = h / d * d * (n / h) := by
    rw [Nat.div_eq_iff_eq_mul_left hd hdvd, Nat.mul_right_comm]
  rw [hmul]
  constructor
  case mp =>
    intro heq
    have hle : h / d * d * (n / h) ≤ h * (n / h) := Nat.mul_le_mul_right _ (Nat.div_mul_le_self h d)
    have hle' : h * (n / h) ≤ n := Nat.mul_div_le n h
    have hfull : h * (n / h) = n := hle'.antisymm (heq.le.trans hle)
    refine ⟨⟨n / h, hfull.symm⟩, ?_⟩
    by_cases hzero : n = 0
    case pos => exact hn hzero ▸ one_dvd h
    case neg =>
      have hpos : 0 < n / h := Nat.pos_of_ne_zero fun hz => hzero (by rw [← hfull, hz, Nat.mul_zero])
      exact ⟨h / d, by rw [Nat.mul_comm]; exact Nat.eq_of_mul_eq_mul_right hpos (hfull.trans heq)⟩
  case mpr => exact fun ⟨hn, hd⟩ => by rw [Nat.div_mul_cancel hd, Nat.mul_div_cancel' hn]

-- The heads of keys of the shards are all of them.
theorem keys_iff {k s : Nat} (hd : 0 < d) (hdvd : d ∣ k * s) (hn : k * s = 0 → d = 1) :
    k * s / d = k / d * s ↔ d ∣ k := by
  rw [Nat.div_eq_iff_eq_mul_left hd hdvd, Nat.mul_right_comm]
  constructor
  case mp =>
    intro heq
    by_cases hzero : k * s = 0
    case pos => exact hn hzero ▸ one_dvd k
    case neg => exact ⟨k / d, by
      rw [Nat.mul_comm]
      exact Nat.eq_of_mul_eq_mul_right (Nat.pos_of_ne_zero (right_ne_zero_of_mul hzero)) heq⟩
  case mpr => exact fun hd => by rw [Nat.div_mul_cancel hd]

-- The tensors of a layer, as they are cut for a rank
structure Sizes (m : ModelLoader.ModelMeta) (d : Nat) (shard : LlamaMetalModel) (l : Nat) : Prop where
  wq      : shard.rows (.layer l .wq) = some (m.nEmbd / d)
  wo      : shard.cols (.layer l .wo) = some (m.nEmbd / d)
  wk      : shard.rows (.layer l .wk) = some (m.nHeadKv * m.headDim / d)
  wv      : shard.rows (.layer l .wv) = some (m.nHeadKv * m.headDim / d)
  w1      : shard.rows (.layer l .w1) = some (m.nFf / d)
  w3      : shard.rows (.layer l .w3) = some (m.nFf / d)
  w2      : shard.cols (.layer l .w2) = some (m.nFf / d)
  embd    : d ∣ m.nEmbd ∧ (m.nEmbd = 0 → d = 1)
  headsKv : d ∣ m.nHeadKv * m.headDim ∧ (m.nHeadKv * m.headDim = 0 → d = 1)

-- The shard of a tensor whose shape was checked
theorem exists_shard (hs : store.Stored) (hcut : ∀ name ∈ store.index, Cut m store d rank weights name) {l : Nat}
    (hl : l < store.modelMeta.nLayer) (t : LayerTensor) : ∃ data w,
      weights.lookup (TensorName.layer l t).text = some w ∧
        shardWeight (TensorName.layer l t).text data (store.dims.shape (.layer l t)) m.quantization d rank
          (TensorName.layer l t).shardStrategy = .ok w := by
  have ⟨info, hinfo, hdims⟩ := hs.shape (ModelLoader.WeightStore.mem_checked hl t)
  have hmem : (TensorName.layer l t).text ∈ store.index := Finmap.lookup_isSome.mp (by simp [hinfo])
  have ⟨data, shape, w, hshape, hlookup, hw⟩ := hcut _ hmem
  have hsame : store.dims.shape (.layer l t) = shape := by
    rw [ModelLoader.WeightStore.shape, hinfo, Option.map_some, hdims] at hshape
    exact Option.some.inj hshape
  exact ⟨data, w, hlookup, by rw [hsame, ← getShardStrategy_text]; exact hw⟩

theorem sizes (hs : store.Stored) (hd : 0 < d) (hcut : ∀ name ∈ store.index, Cut m store d rank shard.weights name) {l : Nat}
    (hl : l < store.modelMeta.nLayer) : Sizes store.modelMeta d shard l := by
  have hrows {t : LayerTensor} {c r : Nat} (ht : (TensorName.layer l t).shardStrategy = .column)
      (hshape : store.dims.shape (.layer l t) = [c, r]) :
      shard.rows (.layer l t) = some (r / d) ∧ d ∣ r ∧ (r = 0 → d = 1) := by
    have ⟨data, w, hlookup, hw⟩ := exists_shard hs hcut hl t
    rw [ht, hshape] at hw
    have ⟨hw, hdvd⟩ := column_shape hd hw
    exact ⟨by simp [LlamaMetalModel.rows, hlookup, hw], hdvd⟩
  have hcols {t : LayerTensor} {c r : Nat} (ht : (TensorName.layer l t).shardStrategy = .row)
      (hshape : store.dims.shape (.layer l t) = [c, r]) :
      shard.cols (.layer l t) = some (c / d) := by
    have ⟨data, w, hlookup, hw⟩ := exists_shard hs hcut hl t
    rw [ht, hshape] at hw
    simp [LlamaMetalModel.cols, hlookup, (row_shape hd hw).left]
  have hwq := hrows (t := .wq) rfl rfl
  have hwk := hrows (t := .wk) rfl rfl
  exact {
    wq := hwq.left
    wo := hcols rfl rfl
    wk := hwk.left
    wv := (hrows rfl rfl).left
    w1 := (hrows rfl rfl).left
    w3 := (hrows rfl rfl).left
    w2 := hcols rfl rfl
    embd := hwq.right
    headsKv := hwk.right
  }

-- The shards of all ranks are of the same sizes.
theorem sizes_agree_iff (hd : 0 < d) (hmeta : shard.modelMeta = shardMeta m d) (hdim : m.headDim = m.nEmbd / m.nHead)
    (hsizes : ∀ l < m.nLayer, Sizes m d shard l) :
    shard.Agrees ↔ d ≤ m.nHeadKv ∧ (m.nLayer = 0 ∨ m.nHead ∣ m.nEmbd ∧ d ∣ m.nHead ∧ d ∣ m.nHeadKv) := by
  have hq : shard.qSize = m.nHead / d * (m.nEmbd / m.nHead) := by rw [LlamaMetalModel.qSize, hmeta, ← hdim]; rfl
  have hkv : shard.kvSize = m.nHeadKv / d * m.headDim := by rw [LlamaMetalModel.kvSize, hmeta]; rfl
  have hlayers : shard.modelMeta.nLayer = m.nLayer := by rw [hmeta]; rfl
  have hheads : shard.modelMeta.nHeadKv = m.nHeadKv / d := by rw [hmeta]; rfl
  have hff : shard.modelMeta.nFf = m.nFf / d := by rw [hmeta]; rfl
  have hone : 1 ≤ shard.modelMeta.nHeadKv ↔ d ≤ m.nHeadKv := by
    rw [hheads, Nat.one_le_div_iff hd]
  constructor
  case mp =>
    intro h
    refine ⟨hone.mp h.keys.left, or_iff_not_imp_left.mpr fun hzero => ?_⟩
    have hl := Nat.pos_of_ne_zero hzero
    have hs := hsizes 0 hl
    rw [← hlayers] at hl
    have hwq := hs.wq.symm.trans (h.heads 0 hl).left
    have hwk := hs.wk.symm.trans (h.keys.right 0 hl).left
    rw [hq, Option.some.injEq, heads_iff hd hs.embd.left hs.embd.right] at hwq
    rw [hkv, Option.some.injEq, keys_iff hd hs.headsKv.left hs.headsKv.right] at hwk
    exact ⟨hwq.left, hwq.right, hwk⟩
  case mpr =>
    intro ⟨hle, h⟩
    have hall (l) (hl : l < shard.modelMeta.nLayer) : Sizes m d shard l ∧ m.nHead ∣ m.nEmbd ∧ d ∣ m.nHead ∧ d ∣ m.nHeadKv :=
      have hl := hlayers ▸ hl
      ⟨hsizes l hl, h.resolve_left (Nat.ne_zero_of_lt hl)⟩
    refine ⟨fun l hl => ?_, ⟨hone.mpr hle, fun l hl => ?_⟩, fun l hl => ?_⟩
    case refine_1 =>
      have ⟨hs, hdvd, hdvd', _⟩ := hall l hl
      rw [hq, ← (heads_iff hd hs.embd.left hs.embd.right).mpr ⟨hdvd, hdvd'⟩]
      exact ⟨hs.wq, hs.wo⟩
    case refine_2 =>
      have ⟨hs, _, _, hdvd⟩ := hall l hl
      rw [hkv, ← (keys_iff hd hs.headsKv.left hs.headsKv.right).mpr hdvd]
      exact ⟨hs.wk, hs.wv⟩
    case refine_3 =>
      have ⟨hs, _⟩ := hall l hl
      rw [hff]
      exact ⟨hs.w1, hs.w3, hs.w2⟩

-- Each shard of the model agrees with its metadata.
def Agrees (model : LlamaTensorParallelModel) : Prop :=
  ∀ shard ∈ model.shards, shard.Agrees

-- The metadata is divided by heads and the tensors are divided by rows: they agree if and only if the heads fill the
-- rows and each rank has the same number of heads of both kinds.
theorem shardMeta_agrees_iff (cap : Capacity) (bytes : List UInt8) (store : ModelLoader.WeightStore)
    (h : (ModelLoader.loadGguf cap (.new bytes)).1 = .ok store) (order : store.Names) (devices : List Device)
    (model : LlamaTensorParallelModel) (hnew : new store.modelMeta store order devices = .ok model) :
    model.Agrees ↔ devices.length ≤ store.modelMeta.nHeadKv ∧ (store.modelMeta.nLayer = 0 ∨
      store.modelMeta.nHead ∣ store.modelMeta.nEmbd ∧ devices.length ∣ store.modelMeta.nHead ∧
        devices.length ∣ store.modelMeta.nHeadKv) := by
  have hs := ModelLoader.loadGguf_stored h
  have ⟨hd, hlen, hshards⟩ := new_eq_ok hnew
  have hiff (shard) (hmem : shard ∈ model.shards) :=
    sizes_agree_iff hd (hshards shard hmem).left hs.sane.headDim_eq fun _ hl =>
      (hshards shard hmem).right.elim fun _ hcut => sizes hs hd hcut hl
  constructor
  case mp =>
    intro hall
    have hpos : 0 < model.shards.length := hlen ▸ hd
    exact (hiff _ (getElem_mem hpos)).mp (hall _ (getElem_mem hpos))
  case mpr => exact fun h shard hmem => (hiff shard hmem).mpr h

-- The file of a model with one layer of two heads, and the given number of heads of keys
def headsFile (nHeadKv : Nat) : List UInt8 :=
  (writeU32 magic ++ writeU32 3) ++ (writeU64 12 ++ (writeU64 6 ++
    ((writeString "llama.vocab_size" ++ (writeU32 4 ++ writeU32 2)) ++
     (writeString "llama.embedding_length" ++ (writeU32 4 ++ writeU32 64)) ++
     (writeString "llama.block_count" ++ (writeU32 4 ++ writeU32 1)) ++
     (writeString "llama.attention.head_count" ++ (writeU32 4 ++ writeU32 2)) ++
     (writeString "llama.attention.head_count_kv" ++ (writeU32 4 ++ writeU32 (.ofNat nHeadKv))) ++
     (writeString "llama.feed_forward_length" ++ (writeU32 4 ++ writeU32 64)) ++
     (writeDecl ⟨"token_embd.weight", [64, 2], .q4_0, 0⟩ ++ writeDecl ⟨"output_norm.weight", [64], .f32, 0⟩ ++
      writeDecl ⟨"output.weight", [64, 2], .q4_0, 0⟩) ++
     [LayerTensor.attentionNorm, .ffnNorm].flatMap (fun t => writeDecl ⟨(TensorName.layer 0 t).text, [64], .f32, 0⟩) ++
     [LayerTensor.wk, .wv].flatMap (fun t => writeDecl ⟨(TensorName.layer 0 t).text, [64, .ofNat (nHeadKv * 32)], .q4_0, 0⟩) ++
     [LayerTensor.wq, .wo, .w1, .w2, .w3].flatMap fun t =>
       writeDecl ⟨(TensorName.layer 0 t).text, [64, 64], .q4_0, 0⟩))) ++ replicate 2336 0

def headsNames : List String :=
  (TensorName.tokenEmbd :: .outputNorm :: .output :: [LayerTensor.attentionNorm, .wq, .wk, .wv, .wo, .ffnNorm, .w1, .w2, .w3].map
    (.layer 0)).map TensorName.text

def headsDevice : Device :=
  ⟨true, none, fun _ _ => true⟩

def headsCap : Capacity :=
  ⟨8192, 16, 16, 16, by decide⟩

-- The model is loaded, and its metadata and its shards for two devices are as given.
def loads (bytes : List UInt8) (p : ModelLoader.ModelMeta → List LlamaMetalModel → Bool) : Bool :=
  match (ModelLoader.loadGguf headsCap (.new bytes)).1 with
  | .error _  => false
  | .ok store => decide (store.index.keys = headsNames.toFinset) &&
    match newShards store.modelMeta store headsNames [headsDevice, headsDevice] with
    | .error _   => false
    | .ok shards => p store.modelMeta shards

theorem exists_new {bytes : List UInt8} {p : ModelLoader.ModelMeta → List LlamaMetalModel → Bool} (h : loads bytes p = true) :
    ∃ store order model, (ModelLoader.loadGguf headsCap (.new bytes)).1 = .ok store ∧
      new store.modelMeta store order [headsDevice, headsDevice] = .ok model ∧ p store.modelMeta model.shards := by
  unfold loads at h
  split at h
  case h_1 => cases h
  case h_2 store hload =>
    rw [Bool.and_eq_true, decide_eq_true_iff] at h
    have ⟨hkeys, h⟩ := h
    have hmem {name : String} : name ∈ headsNames ↔ name ∈ store.index := by
      rw [← Finmap.mem_keys, hkeys, mem_toFinset]
    split at h
    case h_1 => cases h
    case h_2 shards hshards =>
      exact ⟨store, ⟨headsNames, by decide +kernel, hmem⟩, ⟨store.modelMeta, shards, 2⟩, hload, by
        simp [new, hshards, bind, Except.bind, pure, Except.pure], h⟩

theorem shardMeta_agrees_iff_two : ∃ store order model,
    (ModelLoader.loadGguf headsCap (.new (headsFile 2))).1 = .ok store ∧
      new store.modelMeta store order [headsDevice, headsDevice] = .ok model ∧ model.Agrees := by
  have hl : loads (headsFile 2) (fun m _ => decide (m.nHeadKv = 2 ∧ m.nHead = 2 ∧ m.nEmbd = 64)) = true := by decide +kernel
  have ⟨store, order, model, hload, hnew, hm⟩ := exists_new hl
  have ⟨hkv, hh, hn⟩ := of_decide_eq_true hm
  refine ⟨store, order, model, hload, hnew, (shardMeta_agrees_iff _ _ store hload order _ model hnew).mpr ?_⟩
  rw [hkv, hh, hn]
  exact ⟨by decide, .inr (by decide)⟩

-- The two heads of this model look at one head of keys, and no rank is left with one.
theorem exists_not_shardMeta_agrees : ∃ cap bytes store order devices model,
    (ModelLoader.loadGguf cap (.new bytes)).1 = .ok store ∧ new store.modelMeta store order devices = .ok model ∧
      ¬model.Agrees := by
  have hl : loads (headsFile 1) (fun _ shards => shards.any fun shard => decide (shard.modelMeta.nHeadKv = 0)) = true := by
    decide +kernel
  have ⟨store, order, model, hload, hnew, hm⟩ := exists_new hl
  refine ⟨headsCap, headsFile 1, store, order, _, model, hload, hnew, fun hall => ?_⟩
  have ⟨shard, hmem, hzero⟩ := any_eq_true.mp hm
  have hone := (hall shard hmem).keys.left
  rw [of_decide_eq_true hzero] at hone
  exact absurd hone (by decide)

end LlamaTensorParallelModel

end TpModel
