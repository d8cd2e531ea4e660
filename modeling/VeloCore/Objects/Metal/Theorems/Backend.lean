import VeloCore.Objects.Metal.Backend

open List

namespace MetalBackend

variable {κ φ : Type} {s s' : MetalState κ} {context drafted : List TokenId} {model : Nat} {slot : SlotId}

-- Everything that a call looks up before it runs a model is there.
structure Ready (b : MetalBackend) (r : MetalMemoryRuntime) (model : Nat) (slot : SlotId) : Prop where
  model       : b.model = some model
  allocator   : b.allocator = true
  store       : b.store = true
  prefixSpan  : ∃ cachedPrefix handle span, b.boundPrefix = some cachedPrefix ∧ cachedPrefix.handle = some handle ∧
    r.allocator.materializeSpan handle = some span ∧
    ∀ page ∈ span.pages, (r.store.getBlock { blockId := page, tokenLen := 0 }).isSome ∧
      b.config.pagedBlockSize * b.config.kvBytesPerToken ≠ 0
  slot        : b.slotId = some slot
  slotMapping : b.slotMapping = true

section Lookups

variable {σ : Type} {t t' : σ}

theorem expect_some {error : SpeculativeError} : expect (some a) error t = (.ok a, t) :=
  rfl

theorem expect_eq_ok {x : Option α} (h : expect x error t = (.ok a, t')) : x = some a ∧ t' = t := by
  cases x <;> cases h
  exact ⟨rfl, rfl⟩

theorem expectWired_eq_ok (h : expectWired x message t = (.ok a, t')) : x = true ∧ t' = t := by
  have ⟨hx, ht⟩ := expect_eq_ok h
  cases x
  case true  => exact ⟨rfl, ht⟩
  case false => contradiction

variable {store : MetalKvStore} {pageBytes : Nat} {pages : List PageId}

theorem divide_eq_ok {n m q : Nat} (h : (divide n m : Eff σ SpeculativeError Nat) t = (.ok q, t')) : m ≠ 0 ∧ t' = t := by
  unfold divide at h
  split at h <;> cases h
  exact ⟨‹_›, rfl⟩

theorem blockIndices_eq_ok (h : blockIndices store pageBytes pages t = (.ok l, t')) :
    (∀ page ∈ pages, (store.getBlock { blockId := page, tokenLen := 0 }).isSome ∧ pageBytes ≠ 0) ∧ t' = t := by
  induction pages generalizing t l
  case nil => cases h; exact ⟨nofun, rfl⟩
  case cons page pages hi =>
    have ⟨block, t₁, hb, h⟩ := Eff.bind_eq_ok_iff.mp h
    have ⟨index, t₂, hdiv, h⟩ := Eff.bind_eq_ok_iff.mp h
    have ⟨rest, t₃, hr, h⟩ := Eff.bind_eq_ok_iff.mp h
    cases h
    have ⟨hb, ht₁⟩ := expect_eq_ok hb
    have ⟨hpos, ht₂⟩ := divide_eq_ok hdiv
    have ⟨hr, ht₃⟩ := hi hr
    exact ⟨forall_mem_cons.mpr ⟨⟨hb ▸ rfl, hpos⟩, hr⟩, ht₃.trans (ht₂.trans ht₁)⟩

theorem blockIndices_isOk
    (h : ∀ page ∈ pages, (store.getBlock { blockId := page, tokenLen := 0 }).isSome ∧ pageBytes ≠ 0) :
    ∃ l, blockIndices store pageBytes pages t = (.ok l, t) := by
  induction pages
  case nil => exact ⟨[], rfl⟩
  case cons page pages hi =>
    have ⟨⟨hb, hpos⟩, hr⟩ := forall_mem_cons.mp h
    have ⟨block, hb⟩ := Option.isSome_iff_exists.mp hb
    have ⟨rest, hr⟩ := hi hr
    have hdiv : (divide block.offset pageBytes : Eff σ SpeculativeError Nat) t = (.ok (block.offset / pageBytes), t) := by
      rw [divide, if_neg hpos]
      rfl
    exact ⟨_, by rw [blockIndices, hb, Eff.bind_ok expect_some, Eff.bind_ok hdiv, Eff.bind_ok hr]; rfl⟩

theorem materialize_eq_ok (h : materialize handle s = (.ok (), s')) : ∃ span,
    s.runtime.allocator.materializeSpan handle = some span ∧
    (∀ page ∈ span.pages, (s.runtime.store.getBlock { blockId := page, tokenLen := 0 }).isSome ∧
      s.backend.config.pagedBlockSize * s.backend.config.kvBytesPerToken ≠ 0) ∧ s' = s := by
  have ⟨_, _, hget, h⟩ := Eff.bind_eq_ok_iff.mp h
  cases hget
  have ⟨span, s₁, h₁, h⟩ := Eff.bind_eq_ok_iff.mp h
  have ⟨hspan, hs₁⟩ := expect_eq_ok h₁
  have ⟨_, s₂, h₂, h⟩ := Eff.bind_eq_ok_iff.mp h
  have ⟨hblocks, hs₂⟩ := blockIndices_eq_ok h₂
  cases h
  exact ⟨span, hspan, hblocks, hs₂.trans hs₁⟩

-- The lookups in the order of `verify_logits`.
def lookups : Eff (MetalState κ) SpeculativeError (Nat × SlotId) := do
  let b := (← Eff.get).backend
  let model ← expect b.model notInitialized
  expectWired b.allocator "Allocator not wired"
  expectWired b.store "Store not wired"
  let handle ← prefixHandle b
  materialize handle
  let slot ← expect b.slotId (.model "Slot not bound")
  expectWired b.slotMapping "Slot mapping not wired"
  pure (model, slot)

theorem lookups_eq_ok (h : lookups s = (.ok (model, slot), s')) : Ready s.backend s.runtime model slot ∧ s' = s := by
  have ⟨_, _, hget, h⟩ := Eff.bind_eq_ok_iff.mp h
  cases hget
  have ⟨_, s₁, h₁, h⟩ := Eff.bind_eq_ok_iff.mp h
  have ⟨hmodel, hs₁⟩ := expect_eq_ok h₁
  have ⟨_, s₂, h₂, h⟩ := Eff.bind_eq_ok_iff.mp h
  have ⟨hallocator, hs₂⟩ := expectWired_eq_ok h₂
  have ⟨_, s₃, h₃, h⟩ := Eff.bind_eq_ok_iff.mp h
  have ⟨hstore, hs₃⟩ := expectWired_eq_ok h₃
  have ⟨handle, s₄, h₄, h⟩ := Eff.bind_eq_ok_iff.mp h
  have ⟨cachedPrefix, s₅, h₅, h₄⟩ := Eff.bind_eq_ok_iff.mp h₄
  have ⟨hbound, hs₅⟩ := expect_eq_ok h₅
  have ⟨hhandle, hs₄⟩ := expect_eq_ok h₄
  have ⟨_, s₆, h₆, h⟩ := Eff.bind_eq_ok_iff.mp h
  have ⟨span, hspan, hblocks, hs₆⟩ := materialize_eq_ok h₆
  have ⟨_, s₇, h₇, h⟩ := Eff.bind_eq_ok_iff.mp h
  have ⟨hslot, hs₇⟩ := expect_eq_ok h₇
  have ⟨_, s₈, h₈, h⟩ := Eff.bind_eq_ok_iff.mp h
  have ⟨hmapping, hs₈⟩ := expectWired_eq_ok h₈
  cases h
  subst_vars
  exact ⟨⟨hmodel, hallocator, hstore, ⟨cachedPrefix, handle, span, hbound, hhandle, hspan, hblocks⟩, hslot, hmapping⟩, rfl⟩

theorem lookups_ok (w : Ready s.backend s.runtime model slot) : lookups s = (.ok (model, slot), s) := by
  have ⟨cachedPrefix, handle, span, hbound, hhandle, hspan, hblocks⟩ := w.prefixSpan
  have ⟨_, (hblocks : blockIndices s.runtime.store
    (s.backend.config.pagedBlockSize * s.backend.config.kvBytesPerToken) _ s = _)⟩ := blockIndices_isOk hblocks
  have hwired {message} : expectWired true message s = (.ok (), s) := rfl
  have hprefix : prefixHandle s.backend s = (.ok handle, s) := by
    rw [prefixHandle, hbound, Eff.bind_ok expect_some, hhandle, expect_some]
  have hmaterialize : materialize handle s = (.ok (), s) := by
    rw [materialize, Eff.bind_ok Eff.get_apply, hspan, Eff.bind_ok expect_some, Eff.bind_ok hblocks]
    rfl
  rw [lookups, Eff.bind_ok Eff.get_apply, w.model, w.allocator, w.store, w.slot, w.slotMapping, Eff.bind_ok expect_some,
    Eff.bind_ok hwired, Eff.bind_ok hwired, Eff.bind_ok hprefix, Eff.bind_ok hmaterialize, Eff.bind_ok expect_some,
    Eff.bind_ok hwired]
  rfl

end Lookups

variable (g : MetalDevice κ φ)

theorem verifyLogits_eq : verifyLogits g context drafted =
    lookups >>= fun (model, slot) => verifyFrom g model slot context.length drafted := by
  simp only [verifyLogits, lookups, bind_assoc, pure_bind]

theorem nextLogits_eq (h : context.getLast? = some last) : nextLogits g context =
    lookups >>= fun (model, slot) => run g model last (context.length - 1) slot := by
  have hlast {error : SpeculativeError} : (expect (some last) error : Eff (MetalState κ) _ _) = pure last := rfl
  simp only [nextLogits, lookups, bind_assoc, pure_bind, h, hlast]

theorem verifyLogits_of_ready (w : Ready s.backend s.runtime model slot) :
    verifyLogits g context drafted s = verifyFrom g model slot context.length drafted s := by
  rw [verifyLogits_eq, Eff.bind_ok (lookups_ok w)]

theorem nextLogits_of_ready (w : Ready s.backend s.runtime model slot) (h : context.getLast? = some last) :
    nextLogits g context s = run g model last (context.length - 1) slot s := by
  rw [nextLogits_eq g h, Eff.bind_ok (lookups_ok w)]

-- What a draft by the same model runs: `next_logits` for the context, and again behind each drafted token.
def nextLogitsEach (context : List TokenId) : List TokenId → Eff (MetalState κ) SpeculativeError (List (TokenLogits φ))
  | [] => pure []
  | token :: drafted => do
    let logits ← nextLogits g context
    let rest ← nextLogitsEach (context ++ [token]) drafted
    pure (logits :: rest)

-- The rows of a verification are the logits of `next_logits` over the same contents of the pools, whatever
-- the device makes of a token, a position and the contents.
def Agrees (b : MetalBackend) (r : MetalMemoryRuntime) (context drafted : List TokenId) : Prop :=
  ∀ (κ φ : Type) (g : MetalDevice κ φ) (pools : κ) (rows : List (TokenLogits φ)),
    (verifyLogits g context drafted ⟨b, r, pools⟩).1 = .ok rows →
    (nextLogitsEach g context drafted ⟨b, r, pools⟩).1 = .ok rows

-- A device that answers with the position.
def positions : MetalDevice Unit Nat where
  run _ _ pos _ _ _ _ _ := (.ok [pos], ())

theorem run_positions {s : MetalState Unit} (token : TokenId) (pos : Nat) :
    run positions model token pos slot s = (.ok ⟨[pos], cons_ne_nil _ _⟩, s) :=
  rfl

theorem verifyFrom_positions (s : MetalState Unit) (model : Nat) (slot : SlotId) (pos : Nat) (drafted : List TokenId) :
    ∃ rows,
    verifyFrom positions model slot pos drafted s = (.ok rows, s) ∧
    rows.map (·.values) = (List.range' pos drafted.length).map ([·]) := by
  induction drafted generalizing pos
  case nil => exact ⟨[], rfl, rfl⟩
  case cons token drafted hi =>
    have ⟨rows, hv, hr⟩ := hi (pos + 1)
    refine ⟨_, by rw [verifyFrom, Eff.bind_ok (run_positions token pos), Eff.bind_ok hv]; rfl, ?_⟩
    simp [hr, range'_succ]

-- The first row is of one position further on than the logits that it stands for.
theorem Ready.not_agrees {b : MetalBackend} {r : MetalMemoryRuntime} (w : Ready b r model slot) (hne : context ≠ [])
    (hd : drafted ≠ []) : ¬Agrees b r context drafted := by
  intro h
  have ⟨last, hlast⟩ := Option.isSome_iff_exists.mp (getLast?_isSome.mpr hne)
  have ⟨token, rest, hdrafted⟩ := exists_cons_of_ne_nil hd
  have ⟨rows, hv, hrows⟩ := verifyFrom_positions ⟨b, r, ()⟩ model slot context.length drafted
  rw [← verifyLogits_of_ready positions (by exact w)] at hv
  have ⟨s', hn⟩ : ∃ s', nextLogitsEach positions context drafted ⟨b, r, ()⟩ = (.ok rows, s') :=
    ⟨_, Prod.ext (h _ _ positions () rows (congrArg Prod.fst hv)) rfl⟩
  rw [hdrafted, nextLogitsEach] at hn
  have ⟨logits, s₁, hfirst, hnext⟩ := Eff.bind_eq_ok_iff.mp hn
  have ⟨_, s₂, _, hpure⟩ := Eff.bind_eq_ok_iff.mp hnext
  rw [nextLogits_of_ready positions (by exact w) hlast, run_positions] at hfirst
  cases hpure
  cases hfirst
  simp only [hdrafted, map_cons, length_cons, range'_succ, cons.injEq, and_true] at hrows
  have := length_pos_of_ne_nil hne
  omega

theorem agrees_iff (b : MetalBackend) (r : MetalMemoryRuntime) (hne : context ≠ []) :
    Agrees b r context drafted ↔ drafted = [] ∨ ¬∃ model slot, Ready b r model slot := by
  refine ⟨fun h => ?_, fun h κ φ g pools rows hv => ?_⟩
  case refine_1 =>
    by_contra hn
    have ⟨hd, model, slot, w⟩ := not_or.mp hn |>.imp_right not_not.mp
    exact w.not_agrees hne hd h
  case refine_2 =>
    have hv : verifyLogits g context drafted ⟨b, r, pools⟩ = (.ok rows, _) := Prod.ext hv rfl
    rw [verifyLogits_eq] at hv
    have ⟨(model, slot), _, hl, hv⟩ := Eff.bind_eq_ok_iff.mp hv
    rcases h with rfl | hn
    case inl => cases hv; rfl
    case inr => exact absurd ⟨model, slot, (lookups_eq_ok hl).left⟩ hn

-- A wired backend. The span of its prefix is the page 1, and the store has a block 1 for no tokens.
def spanBackend : MetalBackend where
  config := ⟨1, 2⟩
  boundPrefix := some ⟨2, some ⟨3, 2⟩⟩
  model := some 7
  allocator := true
  store := true
  slotId := some 0
  slotMapping := true

def spanRuntime : MetalMemoryRuntime where
  memory := ⟨1, 2, 2, 1⟩
  store := (MetalKvStore.allocate 0 (.new 1 2 2)).2
  allocator := (PagedAttentionBlockManager.allocate ⟨3, 2⟩ 2
    (PagedAttentionBlockManager.allocate ⟨2, 2⟩ 2 (.new ⟨2, 2, Nat.zero_lt_two⟩)).2).2
  slotMapping := fun _ => 0

theorem ready_span : Ready spanBackend spanRuntime 7 0 :=
  ⟨rfl, rfl, rfl, ⟨_, ⟨3, 2⟩, ⟨[1]⟩, rfl, rfl, by decide +kernel, by decide +kernel⟩, rfl, rfl⟩

theorem agrees_iff_span : Agrees spanBackend spanRuntime [5, 6] [] ∧ ¬Agrees spanBackend spanRuntime [5, 6] [8] := by
  refine ⟨(agrees_iff _ _ (by decide)).mpr (.inl rfl), fun h => ?_⟩
  exact ((agrees_iff _ _ (by decide)).mp h).elim (cons_ne_nil _ _) fun hn => hn ⟨7, 0, ready_span⟩

theorem exists_not_agrees : ∃ b r, Ready b r 7 0 ∧ ¬Agrees b r [5, 6] [8] :=
  ⟨_, _, ready_span, ready_span.not_agrees (by decide) (by decide)⟩

-- A call of `next_logits` comes to run the model, whatever the device is.
def Reaches (b : MetalBackend) (r : MetalMemoryRuntime) (context : List TokenId) : Prop :=
  ∃ model last slot, ∀ (κ φ : Type) (g : MetalDevice κ φ) (pools : κ),
    nextLogits g context ⟨b, r, pools⟩ = run g model last (context.length - 1) slot ⟨b, r, pools⟩

theorem Reaches.ready {b : MetalBackend} {r : MetalMemoryRuntime} (h : Reaches b r context) :
    ∃ model slot, Ready b r model slot := by
  have ⟨_, _, _, h⟩ := h
  have h := h _ _ positions ()
  rw [run_positions] at h
  have ⟨last, hlast⟩ : ∃ last, context.getLast? = some last := by
    have ⟨_, _, _, h⟩ := Eff.bind_eq_ok_iff.mp h
    have ⟨_, _, _, h⟩ := Eff.bind_eq_ok_iff.mp h
    have ⟨_, _, _, h⟩ := Eff.bind_eq_ok_iff.mp h
    have ⟨_, _, _, h⟩ := Eff.bind_eq_ok_iff.mp h
    have ⟨last, _, h, _⟩ := Eff.bind_eq_ok_iff.mp h
    exact ⟨last, (expect_eq_ok h).left⟩
  rw [nextLogits_eq positions hlast] at h
  have ⟨(model, slot), _, hl, _⟩ := Eff.bind_eq_ok_iff.mp h
  exact ⟨model, slot, (lookups_eq_ok hl).left⟩

end MetalBackend
