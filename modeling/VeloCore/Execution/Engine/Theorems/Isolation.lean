import VeloCore.Execution.Engine.Theorems.Pages

open List MemoryRuntime

namespace PageSpan

variable {span span' : PageSpan} {blockSize pos pos' : Nat}

-- The cell of a position: a page of the list and a place on it.
def cell (span : PageSpan) (blockSize pos : Nat) : Option (PageId × Nat) :=
  span.pages[pos / blockSize]?.map (·, pos % blockSize)

theorem cell_eq_some_iff : span.cell blockSize pos = some c ↔ span.pages[pos / blockSize]? = some c.1 ∧ pos % blockSize = c.2 := by
  simp [cell, Prod.ext_iff]

theorem cell_injective (hn : span.pages.Nodup) (h : span.cell blockSize pos = some c) (h' : span.cell blockSize pos' = some c) :
    pos = pos' := by
  have ⟨hp, hm⟩ := cell_eq_some_iff.mp h
  have ⟨hp', hm'⟩ := cell_eq_some_iff.mp h'
  have ⟨hlt, _⟩ := List.getElem?_eq_some_iff.mp hp
  have hdiv := (getElem?_inj hlt hn).mp (hp.trans hp'.symm)
  rw [← Nat.div_add_mod pos blockSize, ← Nat.div_add_mod pos' blockSize, hdiv, hm, hm']

theorem cell_of_disjoint (hd : span.pages.Disjoint span'.pages) (h : span.cell blockSize pos = some c) :
    span'.cell blockSize pos' ≠ some c := fun h' =>
  hd (mem_of_getElem? (cell_eq_some_iff.mp h).left) (mem_of_getElem? (cell_eq_some_iff.mp h').left)

-- A request with `prompt` tokens writes from the end of the prompt on, for `n` tokens. No cell of these is one
-- that the other request maps for its `m` tokens.
def Isolated (blockSize : Nat) (span span' : PageSpan) (prompt n m : Nat) : Prop :=
  ∀ pos pos' c, prompt ≤ pos → pos < prompt + n → pos' < m → span.cell blockSize pos = some c →
    span'.cell blockSize pos' ≠ some c

-- On the same pages, this is up to the room that the prompt leaves on its last page.
theorem isolated_self_iff (hb : 0 < blockSize) (hn : span.pages.Nodup)
    (hl : span.pages.length = (p + blockSize - 1) / blockSize) :
    Isolated blockSize span span p n (p + m) ↔ n = 0 ∨ m = 0 ∨ blockSize ∣ p := by
  constructor
  case mp =>
    intro h
    by_contra hne
    have ⟨hn0, hm0, hdvd⟩ : n ≠ 0 ∧ m ≠ 0 ∧ ¬blockSize ∣ p := by simpa [not_or] using hne
    have hlt : p / blockSize < span.pages.length := by
      rw [hl, Nat.lt_div_iff_mul_lt hb]
      have := Nat.div_add_mod p blockSize
      have := Nat.pos_of_ne_zero fun h => hdvd (Nat.dvd_of_mod_eq_zero h)
      rw [Nat.mul_comm]
      omega
    have hc : span.cell blockSize p = some (span.pages[p / blockSize], p % blockSize) := by
      simp [cell, getElem?_eq_getElem hlt]
    exact h p p _ le_rfl (by omega) (by omega) hc hc
  case mpr =>
    intro h pos pos' c hpos hlt hpos' hc hc'
    have heq := cell_injective hn hc hc'
    rcases h with rfl | rfl | ⟨k, rfl⟩
    case inl => omega
    case inr.inl => omega
    case inr.inr =>
      have ⟨hp, _⟩ := cell_eq_some_iff.mp hc
      have ⟨hlt, _⟩ := List.getElem?_eq_some_iff.mp hp
      have hk : (blockSize * k + blockSize - 1) / blockSize = k := by
        rw [Nat.add_sub_assoc hb, Nat.mul_add_div hb, Nat.div_eq_of_lt (by omega), Nat.add_zero]
      rw [hl, hk, Nat.div_lt_iff_lt_mul hb, Nat.mul_comm] at hlt
      omega

end PageSpan

namespace VeloEngine

variable {R μ : Type} [MemoryRuntime R] [LawfulMemoryRuntime R] [CfgMatcher μ] {e e' : VeloEngine R μ}
  {reqs : List BatchRequest} {actives : List (ActiveRequest μ)} {reqᵢ reqⱼ : BatchRequest}

def blockSize (e : VeloEngine R μ) : Nat :=
  (allocator e.runtime).config.blockSize

-- Two requests with the same prompt share the last page of it, unless the prompt is saved anew for the later one.
theorem isolated_iff (h : Reachable e) (hp : prepareAll reqs e = (.ok actives, e')) (hij : i ≠ j) (hi : reqs[i]? = some reqᵢ)
    (hj : reqs[j]? = some reqⱼ) : ∃ activeᵢ activeⱼ spanᵢ spanⱼ, actives[i]? = some activeᵢ ∧ actives[j]? = some activeⱼ ∧
    activeᵢ.prefill.insertedPages.or activeᵢ.prefill.cachedPages = some spanᵢ ∧
    activeⱼ.prefill.insertedPages.or activeⱼ.prefill.cachedPages = some spanⱼ ∧
    (PageSpan.Isolated e.blockSize spanᵢ spanⱼ reqᵢ.prompt.length reqᵢ.maxNewTokens (reqⱼ.prompt.length + reqⱼ.maxNewTokens) ↔
      Apart reqs e i j reqᵢ reqⱼ ∨ reqᵢ.maxNewTokens = 0 ∨ reqⱼ.maxNewTokens = 0 ∨ e.blockSize ∣ reqᵢ.prompt.length) := by
  have ⟨hlti, _⟩ := List.getElem?_eq_some_iff.mp hi
  have ⟨hltj, _⟩ := List.getElem?_eq_some_iff.mp hj
  have ⟨activeᵢ, handleᵢ, spanᵢ, hgetᵢ, hpagesᵢ, sᵢ⟩ := prepared_supplied h.filled hp hi
  have ⟨activeⱼ, handleⱼ, spanⱼ, hgetⱼ, hpagesⱼ, sⱼ⟩ := prepared_supplied h.filled hp hj
  refine ⟨activeᵢ, activeⱼ, spanᵢ, spanⱼ, hgetᵢ, hgetⱼ, hpagesᵢ, hpagesⱼ, ?_⟩
  rcases span_cases h.filled hp hij hlti hltj sᵢ sⱼ with ⟨hprompt, happ, hspan⟩ | ⟨happ, hdisjoint⟩
  case inl =>
    have x := prepared_extends h.filled hp (Nat.zero_le i) hlti.le
    have hconfig : (allocator (prepared reqs e i).runtime).config = (allocator e.runtime).config := x.config
    have ⟨hlen, hnodup⟩ := sᵢ.pages
    rw [← hspan, ← hprompt, or_iff_right happ]
    refine PageSpan.isolated_self_iff (allocator e.runtime).config.blockSize_pos hnodup (hlen.trans ?_)
    rw [pagesFor, PagedAttentionBlockManager.pagesForTokens, hconfig, blockSize]
  case inr =>
    exact iff_of_true (fun _ _ _ _ _ _ hc => PageSpan.cell_of_disjoint hdisjoint hc) (.inl happ)

-- Three tokens leave room for one more on a page of four.
def twice : List BatchRequest :=
  [⟨[1, 2, 3], 1, none⟩, ⟨[1, 2, 3], 1, none⟩]

theorem prepareAll_twice : ∃ (e : VeloEngine CpuMemoryRuntime Empty) (active₀ active₁ : ActiveRequest Empty)
    (e' : VeloEngine CpuMemoryRuntime Empty), new ⟨2, ⟨1, 4, 8, 2⟩⟩ = .ok e ∧ prepareAll twice e = (.ok [active₀, active₁], e') ∧
    active₀.prefill.insertedPages.or active₀.prefill.cachedPages = some ⟨[0]⟩ ∧
    active₁.prefill.insertedPages.or active₁.prefill.cachedPages = some ⟨[0]⟩ := by
  have ⟨e, he, h⟩ : ∃ e : VeloEngine CpuMemoryRuntime Empty, new ⟨2, ⟨1, 4, 8, 2⟩⟩ = .ok e ∧
      (prepareAll twice e).1.toOption.map (fun actives => actives.map fun active =>
        active.prefill.insertedPages.or active.prefill.cachedPages) = some [some ⟨[0]⟩, some ⟨[0]⟩] :=
    ⟨_, rfl, by decide +kernel⟩
  match hp : prepareAll twice e with
  | (.error _, _) => simp [hp, Except.toOption] at h
  | (.ok actives, e') =>
    rw [hp] at h
    have h := Option.some.inj h
    match actives with
    | [] | [_] | _ :: _ :: _ :: _ => simp at h
    | [active₀, active₁] =>
      simp only [map_cons, map_nil, cons.injEq, and_true] at h
      exact ⟨e, active₀, active₁, e', he, hp, h⟩

theorem isolated_twice : ∃ (e : VeloEngine CpuMemoryRuntime Empty) (actives : List (ActiveRequest Empty)),
    new ⟨2, ⟨1, 4, 8, 2⟩⟩ = .ok e ∧ ∃ activeᵢ activeⱼ spanᵢ spanⱼ, actives[0]? = some activeᵢ ∧ actives[1]? = some activeⱼ ∧
    activeᵢ.prefill.insertedPages.or activeᵢ.prefill.cachedPages = some spanᵢ ∧
    activeⱼ.prefill.insertedPages.or activeⱼ.prefill.cachedPages = some spanⱼ ∧
    (PageSpan.Isolated e.blockSize spanᵢ spanⱼ 3 1 4 ↔
      Apart twice e 0 1 ⟨[1, 2, 3], 1, none⟩ ⟨[1, 2, 3], 1, none⟩ ∨ 1 = 0 ∨ 1 = 0 ∨ e.blockSize ∣ 3) :=
  have ⟨e, _, _, _, he, hp, _⟩ := prepareAll_twice
  ⟨e, _, he, isolated_iff (reachable_new _ he) hp Nat.zero_ne_one rfl rfl⟩

theorem exists_not_isolated : ∃ (e : VeloEngine CpuMemoryRuntime Empty) (active₀ active₁ : ActiveRequest Empty)
    (e' : VeloEngine CpuMemoryRuntime Empty) (span₀ span₁ : PageSpan), new ⟨2, ⟨1, 4, 8, 2⟩⟩ = .ok e ∧
    prepareAll twice e = (.ok [active₀, active₁], e') ∧
    active₀.prefill.insertedPages.or active₀.prefill.cachedPages = some span₀ ∧
    active₁.prefill.insertedPages.or active₁.prefill.cachedPages = some span₁ ∧
    ¬PageSpan.Isolated 4 span₀ span₁ 3 1 4 :=
  have ⟨e, active₀, active₁, e', he, hp, h₀, h₁⟩ := prepareAll_twice
  ⟨e, active₀, active₁, e', _, _, he, hp, h₀, h₁, fun h => h 3 3 (0, 3) le_rfl (by decide) (by decide) rfl rfl⟩

end VeloEngine
