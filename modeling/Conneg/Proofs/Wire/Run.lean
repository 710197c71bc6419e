import Conneg.Wire.Grammar

/-!
# What holds along a run

A run that finishes its value takes one token after another, and there are bytes left
after each of them but the last. So an invariant of the place and the bytes left needs
two facts only: a token that leads on keeps it, and a token that finishes gives what is
wanted (`Grammar.run_invariant`).

Two things follow for every grammar. What a run leaves is the end of the bytes that it
began with, if that is so of each token (`Grammar.run_suffix`). And a run does not see
what stands behind the value: with a tail behind the bytes it finishes the same value
and leaves the tail besides (`Grammar.run_append`). For that the last token must not be
open to more bytes; the others are followed by bytes that they did not take, so of
them less is asked.
-/

namespace Conneg.Wire

/-! ## Readings that no tail disturbs -/

section Undisturbed

variable {α β : Type} {read : Bytes → Option (α × Bytes)} {bs tail : Bytes}

/-- Whether what is read at the front of `bs` is a part of it, and is read alike when
`tail` stands behind. -/
def Undisturbed (read : Bytes → Option (α × Bytes)) (bs tail : Bytes) : Prop :=
  ∀ x rest, read bs = some (x, rest) →
    rest <:+ bs ∧ read (bs ++ tail) = some (x, rest ++ tail)

/-- What takes no byte is not disturbed. -/
theorem undisturbed_pure (x : α) (bs tail : Bytes) :
    Undisturbed (fun bs => some (x, bs)) bs tail := by
  intro y rest h
  obtain ⟨rfl, rfl⟩ : x = y ∧ bs = rest := by simpa using h
  exact ⟨List.suffix_rfl, rfl⟩

theorem undisturbed_none (bs tail : Bytes) :
    Undisturbed (fun _ => (none : Option (α × Bytes))) bs tail :=
  fun _ _ h => nomatch h

theorem undisturbed_split? (n : Nat) (bs tail : Bytes) : Undisturbed (Bytes.split? n) bs tail := by
  intro front rest h
  obtain ⟨hlength, rfl⟩ := Bytes.split?_eq_some h
  refine ⟨List.suffix_append front rest, ?_⟩
  rw [List.append_assoc, ← hlength]
  exact Bytes.split?_append front (rest ++ tail)

theorem Undisturbed.map (h : Undisturbed read bs tail) (f : α → β) :
    Undisturbed (fun bs => (read bs).map fun (x, rest) => (f x, rest)) bs tail := by
  intro y rest hy
  obtain ⟨⟨x, rest'⟩, hx, heq⟩ := Option.map_eq_some_iff.1 hy
  obtain ⟨rfl, rfl⟩ := Prod.mk.inj heq
  obtain ⟨hsuffix, htail⟩ := h x rest' hx
  exact ⟨hsuffix, by simp only [htail, Option.map_some]⟩

theorem Undisturbed.bind (h : Undisturbed read bs tail)
    {next : α → Bytes → Option (β × Bytes)} (hnext : ∀ x rest, Undisturbed (next x) rest tail) :
    Undisturbed (fun bs => (read bs).bind fun (x, rest) => next x rest) bs tail := by
  intro y rest hy
  obtain ⟨⟨x, rest'⟩, hx, hy⟩ := Option.bind_eq_some_iff.1 hy
  obtain ⟨hsuffix, htail⟩ := h x rest' hx
  obtain ⟨hsuffix', htail'⟩ := hnext x rest' y rest hy
  exact ⟨hsuffix'.trans hsuffix, by simp only [htail, Option.bind_some, htail']⟩

end Undisturbed

/-! ## Runs -/

namespace Grammar

variable {τ S σ : Type} {G : Grammar τ S σ} {bs rest : Bytes} {s : S} {tree : Node σ}

/-- There is no token in no bytes. -/
theorem token_nil : G.token [] = none := by
  cases h : G.token [] with
  | none => rfl
  | some p =>
    obtain ⟨t, rest⟩ := p
    exact absurd (G.token_shorter h) (Nat.not_lt_zero _)

/-- Nothing is finished without bytes. -/
theorem run_nil_ne : G.run [] s ≠ ⟨tree, some rest⟩ := by
  rw [run]
  split
  · exact nofun
  · next h => exact nomatch token_nil.symm.trans h

/-- An invariant of the place in the grammar and the bytes left, kept by every token that
leads on to further bytes, gives what is wanted of a finished run if the last token
does. -/
theorem run_invariant (Inv : Bytes → S → Prop) (Good : Node σ → Bytes → Prop)
    (hgo : ∀ {bs t rest s s'}, G.token bs = some (t, rest) → rest ≠ [] →
      G.step t s = .go s' → Inv bs s → Inv rest s')
    (hfinish : ∀ {bs t rest s tree}, G.token bs = some (t, rest) →
      G.step t s = .finish tree → Inv bs s → Good tree rest)
    (hrun : G.run bs s = ⟨tree, some rest⟩) (hinv : Inv bs s) : Good tree rest := by
  fun_induction G.run bs s with
  | case1 => exact nomatch hrun
  | case2 => exact nomatch hrun
  | case3 bs s t rest' htoken tree' hstep =>
    obtain ⟨rfl, rfl⟩ : tree' = tree ∧ rest' = rest := by simpa using hrun
    exact hfinish htoken hstep hinv
  | case4 bs s t rest' htoken s' hstep ih =>
    have hne : rest' ≠ [] := by
      rintro rfl
      exact run_nil_ne hrun
    exact ih hrun (hgo htoken hne hstep hinv)

/-- What a run leaves is the end of what it was given. -/
theorem run_suffix (htoken : ∀ {bs t rest}, G.token bs = some (t, rest) → rest <:+ bs)
    (hrun : G.run bs s = ⟨tree, some rest⟩) : rest <:+ bs :=
  run_invariant (fun left _ => left <:+ bs) (fun _ left => left <:+ bs)
    (fun ht _ _ hinv => (htoken ht).trans hinv) (fun ht _ hinv => (htoken ht).trans hinv)
    hrun List.suffix_rfl

/-- A run does not see what stands behind its value, if the last token is one that does
not, and any other does not as long as bytes are left after it. -/
theorem run_append {tail : Bytes} (Closed : Node σ → Prop)
    (hgo : ∀ {bs t rest}, G.token bs = some (t, rest) → rest ≠ [] →
      G.token (bs ++ tail) = some (t, rest ++ tail))
    (hfinish : ∀ {bs t rest s tree}, G.token bs = some (t, rest) →
      G.step t s = .finish tree → Closed tree → G.token (bs ++ tail) = some (t, rest ++ tail))
    (hrun : G.run bs s = ⟨tree, some rest⟩) (hclosed : Closed tree) :
    G.run (bs ++ tail) s = ⟨tree, some (rest ++ tail)⟩ := by
  -- the run with the tail stays beside the run without, at the same place
  refine run_invariant (fun left s' => G.run (bs ++ tail) s = G.run (left ++ tail) s')
    (fun tree left => Closed tree → G.run (bs ++ tail) s = ⟨tree, some (left ++ tail)⟩)
    ?_ ?_ hrun rfl hclosed
  · intro left t rest s₁ s₂ ht hne hstep hinv
    rw [hinv, run_go (hgo ht hne) hstep]
  · intro left t rest s₁ tree ht hstep hinv hclosed
    rw [hinv, run_finish (hfinish ht hstep hclosed) hstep]

end Grammar
end Conneg.Wire
