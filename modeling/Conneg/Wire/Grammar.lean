import Conneg.Wire.Tree

/-!
# Reading a tree token by token

A grammar says how the next token comes off a byte string and what a token does
to the state of the reading: it may be refused, lead to a new state, or finish
the value. `run` reads tokens until the value is finished or the bytes break.

Every token takes at least one byte, so a run ends; and it keeps its place in
the state and not on a call stack, so deep nesting costs nothing but space.

A state has the containers that the reading is inside of, the innermost first, as a
list of frames. A frame collects the trees of its container; a map's frame takes keys
and values in turn. It can be closed, which gives the whole container, or cut, which
gives the container as far as it came, with a break at its end.
-/

namespace Conneg.Wire

/-! ## Containers under construction -/

/-- A container that has been opened, with its trees last to first. -/
inductive Frame (σ : Type)
  | items (rev : List (Node σ))
  /-- The pending key, if any, waits for its value. -/
  | entries (rev : List (Node σ × Node σ)) (pending : Option (Node σ))

namespace Frame

variable {σ : Type}

/-- One more tree in a container. -/
def add : Frame σ → Node σ → Frame σ
  | .items rev, t => .items (t :: rev)
  | .entries rev none, t => .entries rev (some t)
  | .entries rev (some key), t => .entries ((key, t) :: rev) none

/-- The container, complete. -/
def close : Frame σ → Node σ
  | .items rev => .seq (.prepend rev .done)
  | .entries rev none => .map (.prepend rev .done)
  | .entries rev (some key) => .map (.prepend ((key, .broken) :: rev) .broken)

/-- The container as far as it came. A key without a value gets a broken
one. -/
def cut : Frame σ → Node σ
  | .items rev => .seq (.prepend rev .broken)
  | .entries rev none => .map (.prepend rev .broken)
  | .entries rev (some key) => .map (.prepend ((key, .broken) :: rev) .broken)

/-- The tree of a body that breaks inside these containers, the innermost
first. -/
def cutAll : List (Frame σ) → Node σ
  | [] => .broken
  | f :: fs => fs.foldl (fun t outer => (outer.add t).cut) f.cut

end Frame

/-! ## Runs -/

/-- What a token does. -/
inductive Next (S σ : Type)
  | refuse
  | go (s : S)
  | finish (t : Node σ)

/-- How a format's bytes make a tree: tokens `τ`, states `S`, scalars `σ`. -/
structure Grammar (τ S σ : Type) where
  /-- The next token and the bytes after it. -/
  token : Bytes → Option (τ × Bytes)
  /-- Every token takes at least one byte. -/
  token_shorter : ∀ {bs : Bytes} {t : τ} {rest : Bytes},
    token bs = some (t, rest) → rest.length < bs.length
  /-- What a token does in a state. -/
  step : τ → S → Next S σ
  /-- The tree of a body that breaks in a state. -/
  cut : S → Node σ

/-- What was read: a tree, and the bytes after it if it is complete. -/
structure Parsed (σ : Type) where
  tree : Node σ
  rest : Option Bytes

namespace Grammar

variable {τ S σ : Type}

/-- Reads one value from the front of a byte string. -/
def run (G : Grammar τ S σ) (bs : Bytes) (s : S) : Parsed σ :=
  match _h : G.token bs with
  | none => ⟨G.cut s, none⟩
  | some (t, rest) =>
    match G.step t s with
    | .refuse => ⟨G.cut s, none⟩
    | .finish tree => ⟨tree, some rest⟩
    | .go s => G.run rest s
termination_by bs.length
decreasing_by exact G.token_shorter _h

/-- A run whose next token leads to a new state goes on from there. -/
theorem run_go {G : Grammar τ S σ} {bs rest : Bytes} {t : τ} {s s' : S}
    (ht : G.token bs = some (t, rest)) (hs : G.step t s = .go s') :
    G.run bs s = G.run rest s' := by
  rw [run]
  split
  · next h => simp [ht] at h
  · next h =>
    rw [ht] at h
    simp only [Option.some.injEq, Prod.mk.injEq] at h
    obtain ⟨rfl, rfl⟩ := h
    simp [hs]

/-- A run whose next token finishes the value ends there. -/
theorem run_finish {G : Grammar τ S σ} {bs rest : Bytes} {t : τ} {s : S} {tree : Node σ}
    (ht : G.token bs = some (t, rest)) (hs : G.step t s = .finish tree) :
    G.run bs s = ⟨tree, some rest⟩ := by
  rw [run]
  split
  · next h => simp [ht] at h
  · next h =>
    rw [ht] at h
    simp only [Option.some.injEq, Prod.mk.injEq] at h
    obtain ⟨rfl, rfl⟩ := h
    simp [hs]

end Grammar

end Conneg.Wire
