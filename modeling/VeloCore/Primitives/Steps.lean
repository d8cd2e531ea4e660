import Mathlib.Tactic

-- The runs of a deterministic machine, which are the lists of its inputs.
namespace Steps

variable {σ ι : Type*} (step : σ → ι → σ) {P : σ → ι → Prop} {I E : σ → Prop} {s : σ} {i : ι} {is : List ι}

-- Every step of the run satisfies `P`.
def Along (P : σ → ι → Prop) : σ → List ι → Prop
  | _, []      => True
  | s, i :: is => P s i ∧ Along P (step s i) is

-- `I` holds in every state of the run.
def Always (I : σ → Prop) : σ → List ι → Prop
  | s, []      => I s
  | s, i :: is => I s ∧ Always I (step s i) is

instance decidableAlong [∀ s i, Decidable (P s i)] : (s : σ) → (is : List ι) → Decidable (Along step P s is)
  | _, []      => inferInstanceAs (Decidable True)
  | s, i :: is =>
    have := decidableAlong (step s i) is
    inferInstanceAs (Decidable (P s i ∧ Along step P (step s i) is))

variable {step}

theorem Always.head (h : Always step I s is) : I s := by
  cases is
  case nil  => exact h
  case cons => exact h.left

theorem Always.last (h : Always step I s is) : I (is.foldl step s) := by
  induction is generalizing s
  case nil          => exact h
  case cons i is hi => exact hi h.right

theorem Always.mono (h : Always step I s is) (hi : ∀ s, I s → E s) : Always step E s is := by
  induction is generalizing s
  case nil              => exact hi s h
  case cons i is hrest  => exact ⟨hi s h.left, hrest h.right⟩

theorem Always.along (h : Always step I s is) (hi : ∀ s i, I s → P s i) : Along step P s is := by
  induction is generalizing s
  case nil             => trivial
  case cons i is hrest => exact ⟨hi s i h.left, hrest h.right⟩

theorem Along.of_mem (h : ∀ s, ∀ i ∈ is, P s i) : Along step P s is := by
  induction is generalizing s
  case nil          => trivial
  case cons i is hi => exact ⟨h s i List.mem_cons_self, hi fun s j hj => h s j (List.mem_cons_of_mem i hj)⟩

theorem Along.of_forall (h : ∀ s i, P s i) : Along step P s is := by
  induction is generalizing s
  case nil          => trivial
  case cons i is hi => exact ⟨h s i, hi⟩

-- What each step that satisfies `P` preserves, a run of such steps does.
theorem Along.always (h : Along step P s is) (hs : I s) (hstep : ∀ s i, I s → P s i → I (step s i)) :
    Always step I s is := by
  induction is generalizing s
  case nil          => exact hs
  case cons i is hi => exact ⟨hs, hi h.right (hstep s i hs h.left)⟩

theorem Always.of_step (hs : I s) (hstep : ∀ s i, I s → I (step s i)) : Always step I s is :=
  (Along.of_forall (P := fun _ _ => True) fun _ _ => trivial).always hs fun s i h _ => hstep s i h

-- Where a step that does not satisfy `P` breaks `E` at once, `E` holds along the run just when all its steps satisfy `P`.
theorem always_iff_along (hs : I s) (hie : ∀ s, I s → E s) (hstep : ∀ s i, I s → P s i → I (step s i))
    (hbreak : ∀ s i, I s → ¬P s i → ¬E (step s i)) : Always step E s is ↔ Along step P s is := by
  refine ⟨fun h => ?_, fun h => (h.always hs hstep).mono hie⟩
  induction is generalizing s
  case nil          => trivial
  case cons i is hi =>
    have hp : P s i := by
      by_contra hp
      exact hbreak s i hs hp h.right.head
    exact ⟨hp, hi (hstep s i hs hp) h.right⟩

-- Where each step of a run that satisfies `P` does what `E` says just when it satisfies `Q`, the run does.
theorem along_iff_along {Q : σ → ι → Prop} {E : σ → ι → Prop} (h : Along step P s is) (hs : I s)
    (hiff : ∀ s i, I s → P s i → (E s i ↔ Q s i)) (hstep : ∀ s i, I s → P s i → Q s i → I (step s i)) :
    Along step E s is ↔ Along step Q s is := by
  induction is generalizing s
  case nil => exact Iff.rfl
  case cons i is hi =>
    have hhead := hiff s i hs h.left
    constructor
    case mp =>
      intro ⟨he, hrest⟩
      have hq := hhead.mp he
      exact ⟨hq, (hi h.right (hstep s i hs h.left hq)).mp hrest⟩
    case mpr =>
      intro ⟨hq, hrest⟩
      exact ⟨hhead.mpr hq, (hi h.right (hstep s i hs h.left hq)).mpr hrest⟩

end Steps
