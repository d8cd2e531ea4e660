import VeloCore.Objects.Backend.LlamaCpu

open List

namespace LlamaCpuModel

variable {φ X K : Type} {w : LlamaWeights φ X K} {kv kv' : LlamaKvCache K} {pos layer : Nat}

-- The rows below `n` are the same, in all layers that there are.
def Agree (w : LlamaWeights φ X K) (n : Nat) (kv kv' : LlamaKvCache K) : Prop :=
  ∀ layer < w.nLayer, ∀ t < n, kv.rows layer t = kv'.rows layer t

namespace Agree

theorem symm (h : Agree w n kv kv') : Agree w n kv' kv :=
  fun l hl t ht => (h l hl t ht).symm

theorem trans (h : Agree w n kv kv') (h' : Agree w n kv' kv₁) : Agree w n kv kv₁ :=
  fun l hl t ht => (h l hl t ht).trans (h' l hl t ht)

end Agree

section Layer

@[simp] theorem store_pos : (kv.store layer n row).pos = kv.pos := rfl

theorem store_rows : (kv.store layer pos row).rows l t = if l = layer ∧ t = pos then row else kv.rows l t := by
  simp only [LlamaKvCache.store, Function.update_apply]
  split
  case isTrue hl  => subst hl; simp [Function.update_apply]
  case isFalse hl => simp [hl]

-- A layer sees the rows below its position, and the one that it stores itself.
theorem forwardLayer_eq : forwardLayer w pos layer x kv =
    match w.project layer x pos with
    | .error e => (.error (.err e), kv)
    | .ok row =>
      if pos < w.nCtx then
        match w.attend layer x pos ((range pos).map (kv.rows layer) ++ [row]) with
        | .error e => (.error (.err e), kv.store layer pos row)
        | .ok x    => (.ok x, kv.store layer pos row)
      else
        (.error .panic, kv) := by
  have hrows (row : K) : (range (pos + 1)).map ((kv.store layer pos row).rows layer) =
      (range pos).map (kv.rows layer) ++ [row] := by
    rw [range_succ, map_append]
    congr 1
    case e_a =>
      refine map_congr_left fun t ht => ?_
      have hlt := mem_range.mp ht
      rw [store_rows, if_neg fun h => hlt.ne h.right]
    case e_a => simp [store_rows]
  unfold forwardLayer load storeKv
  rw [Eff.bind_apply, Eff.call]
  cases w.project layer x pos
  case error => rfl
  case ok row =>
    dsimp only
    split
    case isFalse => rfl
    case isTrue =>
      simp only [Eff.bind_apply, Eff.modify, Eff.get, Eff.call, hrows]
      split <;> simp_all

-- Only rows at one position are written.
structure Frame (pos : Nat) (kv kv' : LlamaKvCache K) : Prop where
  rows l t : t ≠ pos → kv'.rows l t = kv.rows l t
  pos      : kv'.pos = kv.pos

namespace Frame

theorem refl : Frame pos kv kv :=
  ⟨fun _ _ _ => rfl, rfl⟩

theorem trans (f : Frame pos kv kv') (f' : Frame pos kv' kv₁) : Frame pos kv kv₁ :=
  ⟨fun l t h => (f'.rows l t h).trans (f.rows l t h), f'.pos.trans f.pos⟩

theorem agree (f : Frame pos kv kv') : Agree w pos kv' kv :=
  fun l _ t ht => f.rows l t ht.ne

end Frame

variable (w pos) in
theorem forwardLayer_frame (layer : Nat) (x : X) (kv : LlamaKvCache K) : Frame pos kv (forwardLayer w pos layer x kv).2 ∧
    ∀ l, l ≠ layer → (forwardLayer w pos layer x kv).2.rows l pos = kv.rows l pos := by
  have hstore (row : K) : Frame pos kv (kv.store layer pos row) ∧
      ∀ l, l ≠ layer → (kv.store layer pos row).rows l pos = kv.rows l pos :=
    ⟨⟨fun l t h => by rw [store_rows, if_neg fun h' => h h'.right], rfl⟩,
      fun l h => by rw [store_rows, if_neg fun h' => h h'.left]⟩
  rw [forwardLayer_eq]
  split
  case h_1 => exact ⟨.refl, fun _ _ => rfl⟩
  case h_2 row _ =>
    split
    case isFalse => exact ⟨.refl, fun _ _ => rfl⟩
    case isTrue  => split <;> exact hstore row

variable (w) in
theorem forwardLayer_agree (x : X) (h : ∀ t < pos, kv.rows layer t = kv'.rows layer t) :
    (forwardLayer w pos layer x kv).1 = (forwardLayer w pos layer x kv').1 ∧
      ∀ y, (forwardLayer w pos layer x kv).1 = .ok y →
        (forwardLayer w pos layer x kv).2.rows layer pos = (forwardLayer w pos layer x kv').2.rows layer pos := by
  have hrows : (range pos).map (kv.rows layer) = (range pos).map (kv'.rows layer) :=
    map_congr_left fun t ht => h t (mem_range.mp ht)
  rw [forwardLayer_eq, forwardLayer_eq, hrows]
  cases w.project layer x pos
  case error => exact ⟨rfl, nofun⟩
  case ok row =>
    dsimp only
    split
    case isFalse => exact ⟨rfl, nofun⟩
    case isTrue =>
      split
      case h_1 => exact ⟨rfl, nofun⟩
      case h_2 => exact ⟨rfl, fun _ _ => by simp [store_rows]⟩

end Layer

section One

variable {layers : List Nat} {token : TokenId}

variable (w pos) in
theorem forwardLayers_frame (layers : List Nat) (x : X) (kv : LlamaKvCache K) : Frame pos kv (forwardLayers w pos layers x kv).2 := by
  induction layers generalizing kv x
  case nil => exact .refl
  case cons layer layers hi =>
    have h := (forwardLayer_frame w pos layer x kv).left
    rw [forwardLayers, Eff.bind_apply]
    split
    case h_1 he => rw [he] at h; exact h.trans (hi _ _)
    case h_2 he => rw [he] at h; exact h

variable (w) in
theorem forwardLayers_agree (x : X) (h : ∀ l ∈ layers, ∀ t < pos, kv.rows l t = kv'.rows l t) :
    (forwardLayers w pos layers x kv).1 = (forwardLayers w pos layers x kv').1 ∧
      ∀ y, (forwardLayers w pos layers x kv).1 = .ok y → ∀ l, l ∈ layers ∨ kv.rows l pos = kv'.rows l pos →
        (forwardLayers w pos layers x kv).2.rows l pos = (forwardLayers w pos layers x kv').2.rows l pos := by
  induction layers generalizing kv kv' x
  case nil => exact ⟨rfl, fun _ _ l hl => hl.resolve_left (not_mem_nil)⟩
  case cons layer layers hi =>
    obtain ⟨he, hpos⟩ := forwardLayer_agree w x (h layer mem_cons_self)
    obtain ⟨f, hother⟩ := forwardLayer_frame w pos layer x kv
    obtain ⟨f', hother'⟩ := forwardLayer_frame w pos layer x kv'
    simp only [forwardLayers, Eff.bind_apply]
    rcases h₁ : forwardLayer w pos layer x kv with ⟨r, kv₁⟩
    rcases h₂ : forwardLayer w pos layer x kv' with ⟨r', kv₁'⟩
    rw [h₁] at f he hpos hother
    rw [h₂] at f' he hpos hother'
    obtain rfl : r = r' := he
    cases r
    case error => exact ⟨rfl, by simp⟩
    case ok y =>
      have hbelow : ∀ l ∈ layers, ∀ t < pos, kv₁.rows l t = kv₁'.rows l t := fun l hl t ht => by
        rw [f.rows l t ht.ne, f'.rows l t ht.ne, h l (mem_cons_of_mem _ hl) t ht]
      obtain ⟨hres, hrows⟩ := hi y hbelow
      refine ⟨hres, fun z hz l hl => hrows z hz l ?_⟩
      rw [mem_cons] at hl
      by_cases heq : l = layer
      case pos => exact .inr (heq ▸ hpos y rfl)
      case neg => exact (hl.imp_left (·.resolve_left heq)).imp_right fun hl => by rw [hother l heq, hother' l heq, hl]

variable (w pos) in
theorem forwardOne_frame (token : TokenId) (kv : LlamaKvCache K) : Frame pos kv (forwardOne w pos token kv).2 := by
  have h (x : X) := forwardLayers_frame w pos (range w.nLayer) x kv
  unfold forwardOne load
  rw [Eff.bind_apply, Eff.call]
  cases w.embed token
  case error => exact .refl
  case ok x =>
    dsimp only
    rw [Eff.bind_apply]
    split
    case h_1 he => have h := h x; rw [he] at h; rw [Eff.call_snd]; exact h
    case h_2 he => have h := h x; rw [he] at h; exact h

-- What comes out for a token depends on the rows before it only.
theorem forwardOne_agree (token : TokenId) (h : Agree w pos kv kv') :
    (forwardOne w pos token kv).1 = (forwardOne w pos token kv').1 ∧
      ∀ logits, (forwardOne w pos token kv).1 = .ok logits →
        Agree w (pos + 1) (forwardOne w pos token kv).2 (forwardOne w pos token kv').2 := by
  have f := forwardOne_frame w pos token kv
  have f' := forwardOne_frame w pos token kv'
  have hlast : (forwardOne w pos token kv).1 = (forwardOne w pos token kv').1 ∧
      ∀ logits, (forwardOne w pos token kv).1 = .ok logits → ∀ l < w.nLayer,
        (forwardOne w pos token kv).2.rows l pos = (forwardOne w pos token kv').2.rows l pos := by
    unfold forwardOne load
    simp only [Eff.bind_apply, Eff.call]
    cases w.embed token
    case error => exact ⟨rfl, nofun⟩
    case ok x =>
      have ⟨he, hrows⟩ := forwardLayers_agree w x fun l hl => h l (mem_range.mp hl)
      match h₁ : forwardLayers w pos (range w.nLayer) x kv, h₂ : forwardLayers w pos (range w.nLayer) x kv' with
      | (.error e, kv₁), (r', kv₁') =>
        rw [h₁, h₂] at he
        obtain rfl : .error e = r' := he
        exact ⟨by simp [h₁, h₂], by simp [h₁]⟩
      | (.ok y, kv₁), (r', kv₁') =>
        rw [h₁, h₂] at he hrows
        obtain rfl : .ok y = r' := he
        have hrows := hrows y rfl
        cases hh : w.head y <;> simp only [h₁, h₂, hh]
        case error => exact ⟨trivial, nofun⟩
        case ok    => exact ⟨trivial, fun _ _ l hl => hrows l (.inl (mem_range.mpr hl))⟩
  refine ⟨hlast.left, fun logits hl l hlt t ht => ?_⟩
  rcases Nat.lt_succ_iff_lt_or_eq.mp ht with ht | rfl
  case inl => rw [f.rows l t ht.ne, f'.rows l t ht.ne, h l hlt t ht]
  case inr => exact hlast.right logits hl l hlt

end One

section Fed

variable {fed tokens context drafted : List TokenId} {lg lg' : List φ} [Inhabited K]

omit [Inhabited K] in
theorem forwardFrom_append (n : Nat) (lg : List φ) (tokens : List TokenId) (last : TokenId) :
    forwardFrom w n lg (tokens ++ [last]) =
      forwardFrom w n lg tokens >>= fun _ => forwardOne w (n + tokens.length) last := by
  induction tokens generalizing n lg
  case nil => simp [forwardFrom]
  case cons token tokens hi =>
    simp only [cons_append, forwardFrom, hi, bind_assoc, length_cons]
    rw [show n + 1 + tokens.length = n + (tokens.length + 1) by omega]

-- The cache holds these tokens, from the first position on.
def Holds (w : LlamaWeights φ X K) (fed : List TokenId) (kv : LlamaKvCache K) : Prop :=
  ∃ lg kv₀, forwardFrom w 0 [] fed .new = (.ok lg, kv₀) ∧ Agree w fed.length kv kv₀

theorem freshLogits_iff {logits : TokenLogits φ} :
    FreshLogits w context logits ↔ (forwardFrom w 0 [] context .new).1 = .ok logits.values := by
  have hpos : (LlamaKvCache.new : LlamaKvCache K).pos = 0 := rfl
  rw [FreshLogits, forwardSequence, Eff.bind_ok Eff.get_apply, hpos, Eff.bind_apply]
  split
  case h_1 h => simp [h, advance, Eff.bind_apply, Eff.modify, Eff.pure_apply]
  case h_2 h => simp [h]

theorem FreshLogits.unique (h : FreshLogits w context l) (h' : FreshLogits w context l') : l = l' := by
  have he := Except.ok.inj (h.symm.trans h')
  cases l
  cases l'
  simp_all

omit [Inhabited K] in
theorem call_new_eq_ok_iff {logits : TokenLogits φ} :
    (Eff.call (fun kv : LlamaKvCache K => (TokenLogits.new lg, kv)) kv).1 = .ok logits ↔ lg = logits.values := by
  rw [← TokenLogits.new_eq_ok_iff, Eff.call]
  cases TokenLogits.new lg <;> simp

namespace Holds

theorem new : Holds w [] .new :=
  ⟨[], .new, rfl, fun _ _ _ _ => rfl⟩

theorem frame (f : Holds w fed kv) (h : Frame fed.length kv kv') : Holds w fed kv' :=
  have ⟨lg, kv₀, hf, ha⟩ := f
  ⟨lg, kv₀, hf, h.agree.trans ha⟩

theorem setPos (f : Holds w fed kv) : Holds w fed { kv with pos := n } :=
  have ⟨lg, kv₀, hf, ha⟩ := f
  ⟨lg, kv₀, hf, ha⟩

-- After the tokens that it holds, the model is as good as a fresh one.
theorem forwardOne (f : Holds w fed kv) (token : TokenId) :
    (LlamaCpuModel.forwardOne w fed.length token kv).1 = (forwardFrom w 0 [] (fed ++ [token]) .new).1 ∧
      ∀ lg, (LlamaCpuModel.forwardOne w fed.length token kv).1 = .ok lg →
        Holds w (fed ++ [token]) (LlamaCpuModel.forwardOne w fed.length token kv).2 := by
  have ⟨_, kv₀, h, ha⟩ := f
  have ⟨he, ha⟩ := forwardOne_agree token ha
  have hfrom : forwardFrom w 0 [] (fed ++ [token]) .new = LlamaCpuModel.forwardOne w fed.length token kv₀ := by
    rw [forwardFrom_append, Eff.bind_ok h, Nat.zero_add]
  rw [hfrom]
  refine ⟨he, fun lg hlg => ⟨lg, _, hfrom.trans (Prod.ext (he ▸ hlg) rfl), ?_⟩⟩
  rw [length_append]
  exact ha lg hlg

-- One token: its logits are those of a fresh model, or the call fails.
theorem forwardOne' (f : Holds w fed kv) (token : TokenId) :
    (∃ lg kv', LlamaCpuModel.forwardOne' w fed.length token kv = (.ok lg, kv') ∧ kv'.pos = kv.pos ∧
        Holds w fed kv' ∧ Holds w (fed ++ [token]) kv' ∧
        ∀ logits : TokenLogits φ, FreshLogits w (fed ++ [token]) logits ↔ lg = logits.values) ∨
      ∃ error kv', LlamaCpuModel.forwardOne' w fed.length token kv = (.error error, kv') ∧ kv'.pos = kv.pos ∧
        Holds w fed kv' ∧ ∀ logits, ¬FreshLogits w (fed ++ [token]) logits := by
  have ⟨he, hh⟩ := f.forwardOne token
  have hframe := forwardOne_frame w fed.length token kv
  simp only [freshLogits_iff, ← he]
  match h : LlamaCpuModel.forwardOne w fed.length token kv with
  | (.ok lg, kv') =>
    rw [h] at hh hframe
    exact .inl ⟨lg, kv', Eff.zoom_ok h, hframe.pos, f.frame hframe, hh lg rfl, fun _ => by simp⟩
  | (.error error, kv') =>
    rw [h] at hframe
    have hz : ∃ error, LlamaCpuModel.forwardOne' w fed.length token kv = (.error error, kv') := by
      unfold LlamaCpuModel.forwardOne' Eff.zoom
      cases error <;> simp [h]
    have ⟨error', hz⟩ := hz
    exact .inr ⟨error', kv', hz, hframe.pos, f.frame hframe, by simp⟩

theorem nextLogits (f : Holds w fed kv) (hpos : kv.pos = fed.length) (hlast : context.getLast? = some last) :
    (∀ logits, (LlamaCpuModel.nextLogits w context kv).1 = .ok logits ↔ FreshLogits w (fed ++ [last]) logits) ∧
      ((LlamaCpuModel.nextLogits w context kv).2.pos = kv.pos ∧ Holds w fed (LlamaCpuModel.nextLogits w context kv).2 ∨
        (LlamaCpuModel.nextLogits w context kv).2.pos = kv.pos + 1 ∧
          Holds w (fed ++ [last]) (LlamaCpuModel.nextLogits w context kv).2) := by
  simp only [LlamaCpuModel.nextLogits, hlast]
  rw [Eff.bind_ok Eff.get_apply, hpos]
  rcases f.forwardOne' last with ⟨lg, kv', h, hkv, _, hh, hiff⟩ | ⟨error, kv', h, hkv, hh, hiff⟩
  case inl =>
    rw [Eff.bind_ok h]
    simp only [advance, Eff.bind_apply, Eff.modify, Eff.call_snd, hiff]
    refine ⟨fun logits => ?_, .inr ⟨by rw [hkv, hpos], hh.setPos⟩⟩
    rw [call_new_eq_ok_iff]
  case inr =>
    rw [Eff.bind_error h]
    exact ⟨fun logits => by simp [hiff], .inl ⟨hkv.trans hpos, hh⟩⟩

theorem of_append (f : Holds w (fed ++ [token]) kv) : Holds w fed kv := by
  have ⟨lg, kv₀, h, ha⟩ := f
  rw [forwardFrom_append] at h
  have ⟨lg', kv₁, h₁, h₂⟩ := Eff.bind_eq_ok_iff.mp h
  have hframe := forwardOne_frame w fed.length token kv₁
  rw [Nat.zero_add] at h₂
  rw [h₂] at hframe
  refine ⟨lg', kv₁, h₁, Agree.trans (fun l hl t ht => ha l hl t ?_) hframe.agree⟩
  rw [length_append]
  omega

-- One round of the loop of `verify_logits`.
theorem row (f : Holds w fed kv) (token : TokenId) :
    (∃ row kv', (LlamaCpuModel.forwardOne' w fed.length token >>= fun lg => Eff.call fun kv => (TokenLogits.new lg, kv)) kv =
        (.ok row, kv') ∧ kv'.pos = kv.pos ∧ Holds w fed kv' ∧ Holds w (fed ++ [token]) kv' ∧
        FreshLogits w (fed ++ [token]) row) ∨
      ∃ error kv', (LlamaCpuModel.forwardOne' w fed.length token >>= fun lg => Eff.call fun kv => (TokenLogits.new lg, kv)) kv =
        (.error error, kv') ∧ kv'.pos = kv.pos ∧ Holds w fed kv' ∧ ∀ logits, ¬FreshLogits w (fed ++ [token]) logits := by
  rcases f.forwardOne' token with ⟨lg, kv', h, hkv, hf, hh, hiff⟩ | ⟨error, kv', h, hkv, hf, hiff⟩
  case inr => exact .inr ⟨error, kv', Eff.bind_error h, hkv, hf, hiff⟩
  case inl =>
    rw [Eff.bind_ok h]
    cases hn : TokenLogits.new lg
    case ok row =>
      exact .inl ⟨row, kv', Eff.call_ok rfl, hkv, hf, hh, (hiff row).mpr (TokenLogits.new_eq_ok_iff.mp hn)⟩
    case error error =>
      refine .inr ⟨.err error, kv', Eff.call_error rfl, hkv, hf, fun logits hfresh => ?_⟩
      have h := hn.symm.trans (TokenLogits.new_eq_ok_iff.mpr ((hiff logits).mp hfresh))
      cases h

-- A row of the verification comes from the tokens up to the one that it stands at.
theorem verifyFrom (f : Holds w fed kv) (drafted : List TokenId) :
    (LlamaCpuModel.verifyFrom w fed.length drafted kv).2.pos = kv.pos ∧
      Holds w fed (LlamaCpuModel.verifyFrom w fed.length drafted kv).2 ∧
      (∀ rows, (LlamaCpuModel.verifyFrom w fed.length drafted kv).1 = .ok rows →
        Holds w (fed ++ drafted) (LlamaCpuModel.verifyFrom w fed.length drafted kv).2) ∧
      ∀ rows, (LlamaCpuModel.verifyFrom w fed.length drafted kv).1 = .ok rows ↔
        rows.length = drafted.length ∧ ∀ i row, rows[i]? = some row → FreshLogits w (fed ++ drafted.take (i + 1)) row := by
  induction drafted generalizing fed kv
  case nil =>
    rw [LlamaCpuModel.verifyFrom, Eff.pure_apply]
    refine ⟨rfl, f, fun _ _ => by simpa using f, fun rows => ?_⟩
    cases rows <;> simp
  case cons token drafted hi =>
    rw [LlamaCpuModel.verifyFrom, ← bind_assoc]
    rcases f.row token with ⟨row, kv', h, hkv, hf, hh, hfresh⟩ | ⟨error, kv', h, hkv, hf, hfresh⟩
    case inr =>
      rw [Eff.bind_error h]
      refine ⟨hkv, hf, nofun, fun rows => iff_of_false nofun fun ⟨hlen, hrows⟩ => ?_⟩
      obtain ⟨row, rest, rfl⟩ := exists_cons_of_length_eq_add_one hlen
      exact hfresh row (hrows 0 row rfl)
    case inl =>
      have ⟨hpos', hf', hh', hiff⟩ := hi hh
      rw [length_append, length_singleton] at hpos' hf' hh' hiff
      rw [Eff.bind_ok h, Eff.bind_pure_snd]
      refine ⟨hpos'.trans hkv, hf'.of_append, fun rows hrows => ?_, fun rows => ⟨fun hrows => ?_, fun ⟨hlen, hrows⟩ => ?_⟩⟩
      case refine_1 =>
        have ⟨rest, _, hrest, _⟩ := Eff.bind_eq_ok_iff.mp (Prod.ext hrows rfl)
        simpa using hh' rest (by rw [hrest])
      case refine_2 =>
        have ⟨rest, _, hrest, he⟩ := Eff.bind_eq_ok_iff.mp (Prod.ext hrows rfl)
        cases he
        have ⟨hlen, hrows⟩ := (hiff rest).mp (by rw [hrest])
        refine ⟨by simp [hlen], fun i r hr => ?_⟩
        cases i
        case zero   => cases hr; exact hfresh
        case succ i => simpa using hrows i r hr
      case refine_3 =>
        obtain ⟨r, rest, rfl⟩ := exists_cons_of_length_eq_add_one hlen
        have hr : r = row := FreshLogits.unique (hrows 0 r rfl) hfresh
        have hrest := (hiff rest).mpr ⟨by simpa using hlen, fun i r hr => by simpa using hrows (i + 1) r hr⟩
        rw [Eff.bind_ok (Prod.ext hrest rfl), hr]
        rfl

end Holds

omit [Inhabited K] in
theorem verifyLogits_eq (hpos : kv.pos = fed.length) : verifyLogits w context drafted kv =
    (LlamaCpuModel.verifyFrom w fed.length drafted >>= fun rows => advance drafted.length >>= fun _ => pure rows) kv := by
  rw [verifyLogits, Eff.bind_ok Eff.get_apply, hpos]

-- A call moves the position on, or it leaves what the cache holds as it was.
theorem Call.run_holds (hpos : kv.pos = fed.length) (f : Holds w fed kv) (c : Call) :
    (c.run w kv).2.pos = kv.pos ∧ Holds w fed (c.run w kv).2 ∨
      (c.run w kv).2.pos = kv.pos + c.fed.length ∧ c.fed ≠ [] ∧ Holds w (fed ++ c.fed) (c.run w kv).2 := by
  cases c
  case next context =>
    simp only [Call.run, Call.fed, Eff.bind_pure_snd]
    cases hl : context.getLast?
    case none =>
      have hn : (nextLogits w context kv).2 = kv := by simp [nextLogits, hl, Eff.throw_apply]
      exact .inl (by rw [hn]; exact ⟨rfl, f⟩)
    case some last => exact (f.nextLogits hpos hl).right.imp_right fun ⟨h, hh⟩ => ⟨h, by simp, hh⟩
  case verify context drafted =>
    have ⟨hp, hh, hok, _⟩ := f.verifyFrom drafted
    simp only [Call.run, Call.fed]
    match hv : verifyFrom w fed.length drafted kv with
    | (.error e, kv') =>
      rw [hv] at hp hh
      have hrun : verifyLogits w context drafted kv = (.error e, kv') := by
        rw [verifyLogits_eq hpos, Eff.bind_error hv]
      exact .inl (by rw [hrun]; exact ⟨hp, hh⟩)
    | (.ok rows, kv') =>
      rw [hv] at hp hok
      have hrun : verifyLogits w context drafted kv = (.ok rows, { kv' with pos := kv'.pos + drafted.length }) := by
        rw [verifyLogits_eq hpos, Eff.bind_ok hv]
        rfl
      have hh := (hok rows rfl).setPos (n := kv'.pos + drafted.length)
      have hkv : kv'.pos = kv.pos := hp
      rw [hrun, ← hkv]
      by_cases hnil : drafted = []
      case pos =>
        subst hnil
        exact .inl ⟨rfl, by simpa using hh⟩
      case neg => exact .inr ⟨rfl, hnil, hh⟩

theorem Reached.holds (h : Reached w fed kv) : kv.pos = fed.length ∧ Holds w fed kv := by
  induction h
  case new => exact ⟨rfl, .new⟩
  case call c _ hi =>
    have ⟨hpos, f⟩ := hi
    rcases Call.run_holds hpos f c with ⟨h, hh⟩ | ⟨h, hne, hh⟩
    case inl =>
      rw [if_pos h]
      exact ⟨h.trans hpos, hh⟩
    case inr =>
      have hlt := length_pos_of_ne_nil hne
      rw [if_neg (by omega)]
      exact ⟨by rw [h, hpos, length_append], hh⟩

theorem verifyLogits_eq_ok_iff {rows : List (TokenLogits φ)} (hpos : kv.pos = fed.length) (f : Holds w fed kv) :
    (verifyLogits w context drafted kv).1 = .ok rows ↔ rows.length = drafted.length ∧
      ∀ i row, rows[i]? = some row → FreshLogits w (fed ++ drafted.take (i + 1)) row := by
  have ⟨_, _, _, hiff⟩ := f.verifyFrom drafted
  rw [← hiff, verifyLogits_eq hpos]
  match hv : verifyFrom w fed.length drafted kv with
  | (.error e, kv') => rw [Eff.bind_error hv]
  | (.ok rows, kv') => rw [Eff.bind_ok hv]; simp [advance, Eff.bind_apply, Eff.modify, Eff.pure_apply]

end Fed

section Recorder

-- A model that has as its logits the tokens that it attends to.
def recorder (nCtx : Nat) : LlamaWeights TokenId (List TokenId) (List TokenId) where
  nLayer := 1
  nCtx := nCtx
  embed token := .ok [token]
  project _ x _ := .ok x
  attend _ _ _ rows := .ok rows.flatten
  head x := .ok x

variable {n : Nat} {fed context : List TokenId} {token : TokenId} {kv : LlamaKvCache (List TokenId)}

theorem recorder_forwardOne (h : (range fed.length).map (kv.rows 0) = fed.map ([·])) (hn : fed.length < n) :
    forwardOne (recorder n) fed.length token kv = (.ok (fed ++ [token]), kv.store 0 fed.length [token]) := by
  have hlayer : forwardLayer (recorder n) fed.length 0 [token] kv = (.ok (fed ++ [token]), kv.store 0 fed.length [token]) := by
    have hflat : (fed.map ([·])).flatten = fed := by rw [← flatMap_def, flatMap_singleton']
    rw [forwardLayer_eq, h]
    simp [recorder, hn, hflat]
  have hembed : (load ((recorder n).embed token) : Eff _ _ _) kv = (.ok [token], kv) := rfl
  rw [forwardOne, Eff.bind_ok hembed, show range (recorder n).nLayer = [0] from rfl, forwardLayers, bind_assoc,
    Eff.bind_ok hlayer]
  rfl

theorem recorder_reached (fed : List TokenId) (hn : fed.length ≤ n) : ∃ kv, Reached (recorder n) fed kv ∧
    (range fed.length).map (kv.rows 0) = fed.map ([·]) := by
  induction fed using reverseRecOn
  case nil => exact ⟨_, .new, rfl⟩
  case append_singleton fed token hi =>
    rw [length_append, length_singleton] at hn
    have ⟨kv, hr, hrows⟩ := hi (by omega)
    have ⟨hpos, _⟩ := hr.holds
    have hone : forwardOne' (recorder n) fed.length token kv = (.ok (fed ++ [token]), kv.store 0 fed.length [token]) :=
      Eff.zoom_ok (recorder_forwardOne hrows hn)
    have hlogits : nextLogits (recorder n) [token] kv =
        (.ok ⟨fed ++ [token], by simp⟩, { kv.store 0 fed.length [token] with pos := fed.length + 1 }) := by
      simp only [nextLogits, getLast?_singleton]
      rw [Eff.bind_ok Eff.get_apply, hpos, Eff.bind_ok hone]
      simp [advance, Eff.bind_apply, Eff.modify, Eff.call, TokenLogits.new, hpos]
    have hnext : (Call.next [token]).run (recorder n) kv = (.ok [⟨fed ++ [token], by simp⟩], _) := Eff.bind_ok hlogits
    have hstep := hr.call (.next [token]) (by rw [hnext]; trivial)
    rw [hnext, if_neg (by simp [hpos])] at hstep
    refine ⟨_, hstep, ?_⟩
    rw [length_append, length_singleton, range_succ, map_append, map_append, ← hrows]
    congr 1
    case e_a =>
      refine map_congr_left fun t ht => ?_
      have hlt := mem_range.mp ht
      change (kv.store 0 fed.length [token]).rows 0 t = kv.rows 0 t
      rw [store_rows, if_neg fun h => hlt.ne h.right]
    case e_a => simp [store_rows]

theorem recorder_fresh (hne : context ≠ []) (hn : context.length ≤ n) : FreshLogits (recorder n) context ⟨context, hne⟩ := by
  obtain ⟨fed, token, rfl⟩ := (eq_nil_or_concat' context).resolve_left hne
  rw [length_append, length_singleton] at hn
  have ⟨kv, hr, hrows⟩ := recorder_reached (n := n) fed (by omega)
  have ⟨_, f⟩ := hr.holds
  have ⟨he, _⟩ := f.forwardOne token
  rw [freshLogits_iff, ← he, recorder_forwardOne hrows hn]

end Recorder

section Contract

variable {fed context drafted : List TokenId}

-- What the speculative decoder relies on: the calls are functions of the context.

def NextContract [Inhabited K] (w : LlamaWeights φ X K) (kv : LlamaKvCache K) (context : List TokenId) : Prop :=
  ∀ logits, FreshLogits w context logits → (nextLogits w context kv).1 = .ok logits

def VerifyContract [Inhabited K] (w : LlamaWeights φ X K) (kv : LlamaKvCache K) (context drafted : List TokenId) : Prop :=
  ∀ rows, rows.length = drafted.length →
    (∀ i row, rows[i]? = some row → FreshLogits w (context ++ drafted.take i) row) →
    (verifyLogits w context drafted kv).1 = .ok rows

theorem nextContract_of_eq [Inhabited K] (h : Reached w fed kv) (he : fed ++ [last] = context) : NextContract w kv context := by
  have ⟨hpos, f⟩ := h.holds
  subst he
  exact fun logits hfresh => ((f.nextLogits hpos getLast?_concat).left logits).mpr hfresh

theorem verifyContract_of_eq [Inhabited K] (h : Reached w fed kv)
    (he : ∀ i < drafted.length, fed ++ drafted.take (i + 1) = context ++ drafted.take i) :
    VerifyContract w kv context drafted := by
  have ⟨hpos, f⟩ := h.holds
  intro rows hlen hrows
  refine (verifyLogits_eq_ok_iff hpos f).mpr ⟨hlen, fun i row hr => ?_⟩
  have ⟨hlt, _⟩ := List.getElem?_eq_some_iff.mp hr
  rw [he i (hlen ▸ hlt)]
  exact hrows i row hr

-- The recorder tells apart what it has been fed.

theorem eq_of_nextContract (hne : context ≠ [])
    (h : ∀ n kv, Reached (recorder n) fed kv → NextContract (recorder n) kv context) :
    ∃ last, context.getLast? = some last ∧ fed ++ [last] = context := by
  have ⟨last, hlast⟩ := getLast?_isSome.mpr hne |> Option.isSome_iff_exists.mp
  have ⟨kv, hr, _⟩ := recorder_reached (n := fed.length + 1 + context.length) fed (by omega)
  have ⟨hpos, f⟩ := hr.holds
  have hok := h _ kv hr _ (recorder_fresh hne (by omega))
  have hfresh := ((f.nextLogits hpos hlast).left _).mp hok
  have heq := FreshLogits.unique hfresh (recorder_fresh (by simp) (by simp))
  exact ⟨last, hlast, (congrArg TokenLogits.values heq).symm⟩

theorem eq_of_verifyContract (hne : context ≠ [])
    (h : ∀ n kv, Reached (recorder n) fed kv → VerifyContract (recorder n) kv context drafted) :
    ∀ i < drafted.length, fed ++ drafted.take (i + 1) = context ++ drafted.take i := by
  intro i hi
  obtain ⟨kv, hr, _⟩ := recorder_reached (n := fed.length + drafted.length + context.length) fed (by omega)
  obtain ⟨hpos, f⟩ := hr.holds
  have hrow (i : Nat) : context ++ drafted.take i ≠ [] := by simp [hne]
  have hok := h _ kv hr ((range drafted.length).map fun i => ⟨context ++ drafted.take i, hrow i⟩) (by simp) ?_
  case refine_1 =>
    intro j row hj
    rw [getElem?_map, Option.map_eq_some_iff] at hj
    obtain ⟨k, hk, he⟩ := hj
    have hkj : k = j := by simpa using (List.getElem?_eq_some_iff.mp hk).2.symm
    subst he hkj
    exact recorder_fresh (hrow _) (by simp; omega)
  obtain ⟨_, hrows⟩ := (verifyLogits_eq_ok_iff hpos f).mp hok
  have hfresh := hrows i ⟨context ++ drafted.take i, hrow i⟩ (by simp [hi])
  have hne' : fed ++ drafted.take (i + 1) ≠ [] := ne_nil_of_length_pos (by simp; omega)
  have heq := FreshLogits.unique hfresh (recorder_fresh hne' (by simp; omega))
  exact (congrArg TokenLogits.values heq).symm

theorem eq_of_eq_take_cons {l : List TokenId} (h : l = (token :: l).take l.length) : ∀ t ∈ l, t = token := by
  induction l generalizing token
  case nil => exact nofun
  case cons a l hi =>
    have ⟨ha, hl⟩ := cons.inj h
    exact forall_mem_cons.mpr ⟨ha, fun t ht => (hi hl t ht).trans ha⟩

-- Shifted by one token, the drafted tokens are the same only if they are all one token.
theorem shift_iff : (∀ i < drafted.length, fed ++ drafted.take (i + 1) = context ++ drafted.take i) ↔
    drafted = [] ∨ ∃ token, context = fed ++ [token] ∧ ∀ t ∈ drafted, t = token := by
  constructor
  case mp =>
    intro h
    cases drafted
    case nil => exact .inl rfl
    case cons token drafted =>
      have hcontext : context = fed ++ [token] := by simpa using (h 0 (by simp)).symm
      have hlast := h drafted.length (by simp)
      rw [hcontext, append_assoc, append_cancel_left_eq, take_succ_cons, singleton_append, cons.injEq, take_length] at hlast
      exact .inr ⟨token, hcontext, forall_mem_cons.mpr ⟨rfl, eq_of_eq_take_cons hlast.right⟩⟩
  case mpr =>
    rintro (rfl | ⟨token, rfl, h⟩) i hi
    case inl => simp at hi
    case inr =>
      rw [eq_replicate_of_mem h, take_replicate, take_replicate, min_eq_left (by omega), min_eq_left (by omega),
        replicate_succ, append_assoc, singleton_append]

-- The next logits are right when all tokens but the last one are what the model has been fed so far, and
-- a verification is right when it asks, on top of that, about nothing but the last token again.
theorem contract_iff (fed context drafted : List TokenId) (hne : context ≠ []) :
    ((∀ {φ X K : Type} [Inhabited K] (w : LlamaWeights φ X K) kv, Reached w fed kv → NextContract w kv context) ↔
      fed = context.dropLast) ∧
    ((∀ {φ X K : Type} [Inhabited K] (w : LlamaWeights φ X K) kv, Reached w fed kv → VerifyContract w kv context drafted) ↔
      drafted = [] ∨ fed = context.dropLast ∧ ∀ t ∈ drafted, context.getLast? = some t) := by
  obtain ⟨front, last, rfl⟩ := (eq_nil_or_concat' context).resolve_left hne
  constructor
  case left =>
    rw [dropLast_concat]
    constructor
    case mp =>
      intro h
      have ⟨last', _, he⟩ := eq_of_nextContract hne fun n kv hr => h (recorder n) kv hr
      exact (append_inj' he rfl).left
    case mpr =>
      rintro rfl _ _ _ _ w kv hr
      exact nextContract_of_eq hr rfl
  case right =>
    have hiff : (drafted = [] ∨ fed = (front ++ [last]).dropLast ∧ ∀ t ∈ drafted, (front ++ [last]).getLast? = some t) ↔
        drafted = [] ∨ ∃ token, front ++ [last] = fed ++ [token] ∧ ∀ t ∈ drafted, t = token := by
      simp only [dropLast_concat, getLast?_concat, Option.some_inj, append_singleton_inj]
      exact or_congr_right ⟨fun ⟨hf, h⟩ => ⟨last, ⟨hf.symm, rfl⟩, fun t ht => (h t ht).symm⟩,
        fun ⟨_, ⟨hf, hl⟩, h⟩ => ⟨hf.symm, fun t ht => hl.trans (h t ht).symm⟩⟩
    rw [hiff, ← shift_iff]
    exact ⟨fun h => eq_of_verifyContract hne fun n kv hr => h (recorder n) kv hr,
      fun h _ _ _ _ w kv hr => verifyContract_of_eq hr h⟩

-- The model was fed a token, and asked for the next one of a context that goes on with another.
theorem contract_iff_fed :
    ((∀ {φ X K : Type} [Inhabited K] (w : LlamaWeights φ X K) kv, Reached w [1] kv → NextContract w kv [1, 2]) ↔
      [1] = ([1, 2] : List TokenId).dropLast) ∧
    ((∀ {φ X K : Type} [Inhabited K] (w : LlamaWeights φ X K) kv, Reached w [1] kv → VerifyContract w kv [1, 2] [3]) ↔
      [3] = ([] : List TokenId) ∨ [1] = ([1, 2] : List TokenId).dropLast ∧ ∀ t ∈ [3], ([1, 2] : List TokenId).getLast? = some t) :=
  contract_iff [1] [1, 2] [3] (by decide)

-- A fresh model looks at the last token of a prompt only.
theorem not_nextContract_prompt : Reached (recorder 4) [] .new ∧ ¬NextContract (recorder 4) .new [1, 2] := by
  refine ⟨.new, fun h => ?_⟩
  have hok := h ⟨[1, 2], by decide⟩ (recorder_fresh (by decide) (by decide))
  have hne : (nextLogits (recorder 4) [1, 2] .new).1.toOption.map (·.values) ≠ some [1, 2] := by decide +kernel
  exact hne (by rw [hok]; rfl)

end Contract
end LlamaCpuModel
