import Conneg.Proofs.MsgPack.Token

/-!
# A printed tree is parsed back

A list or a map says how many trees it holds, and the reader keeps, for each
container it is inside of, how many are still to come. So what it does with a printed
tree is stated for any such state: it takes the bytes of the tree, delivers the tree
to the innermost container, and goes on with what follows (`run_printNode`). Within a
container the same holds of all the items or entries that are still to come, whatever
has been collected before (`run_printItems`, `run_printEntries`).

Keys are trees like any other. All that is asked of a tree is that the lengths in it
fit four bytes and its numbers eight (`Node.Fits`).
-/

namespace Conneg.MsgPack

open Wire

/-! ## Trees that have a form -/

/-- Whether a scalar has a form that means it again. -/
def Atom.Fits : Atom → Prop
  | .unsigned n => n < 2 ^ 64
  | .signed n => -2 ^ 63 ≤ n ∧ n < 0
  | .text bs => bs.length < 2 ^ 32
  | .binary _ => False
  | .extension _ => False
  | _ => True

mutual

/-- Whether a tree is unbroken, and each scalar and each container in it has a form. -/
def Node.Fits : Node Atom → Prop
  | .broken => False
  | .scalar x => x.Fits
  | .seq xs => countItems xs < 2 ^ 32 ∧ Items.Fits xs
  | .map es => countEntries es < 2 ^ 32 ∧ Entries.Fits es

/-- The same for the items of a list. -/
def Items.Fits : Items Atom → Prop
  | .done => True
  | .broken => False
  | .cons t rest => Node.Fits t ∧ Items.Fits rest

/-- The same for the entries of a map. -/
def Entries.Fits : Entries Atom → Prop
  | .done => True
  | .broken => False
  | .cons key t rest => Node.Fits key ∧ Node.Fits t ∧ Entries.Fits rest

end

theorem next_print {x : Atom} (hx : x.Fits) (rest : Bytes) :
    Token.next (x.print ++ rest) = some (.atom x, rest) := by
  cases x with
  | null => rfl
  | bool b => cases b <;> rfl
  | unsigned n => exact Token.next_printUnsigned hx rest
  | signed n => exact Token.next_printSigned hx.1 hx.2 rest
  | float x =>
    have hnext : Token.next (marked 0xCB 8 x.word ++ rest)
        = some (.atom (.float ⟨UInt64.ofNat x.word⟩), rest) :=
      Token.next_marked (fun n => .atom (.float ⟨UInt64.ofNat n⟩)) (fun _ => rfl)
        (UInt64.toNat_lt x.bits) rest
    rw [Binary64.word, UInt64.ofNat_toNat] at hnext
    exact hnext
  | text bs => exact Token.next_text hx rest
  | binary bs | extension bs => exact hx.elim

/-! ## Runs -/

/-- What is read once a value is complete: the value, or what its containers become. -/
def delivered (t : Node Atom) (s : State) (rest : Bytes) : Parsed Atom :=
  match deliver t s with
  | .finish t => ⟨t, some rest⟩
  | .go s => grammar.run rest s
  | .refuse => ⟨.broken, none⟩

theorem deliver_ne_refuse (t : Node Atom) (s : State) : deliver t s ≠ .refuse := by
  induction s generalizing t with
  | nil => exact nofun
  | cons frame outer ih =>
    obtain ⟨left, f⟩ := frame
    rw [deliver]
    split
    · exact ih _
    · exact nofun

/-- A token that completes a value delivers it. -/
theorem run_deliver {bs rest : Bytes} {x : Token} {s s' : State} {t : Node Atom}
    (htoken : Token.next bs = some (x, rest)) (hstep : step x s = deliver t s') :
    grammar.run bs s = delivered t s' rest := by
  unfold delivered
  cases hdeliver : deliver t s' with
  | refuse => exact absurd hdeliver (deliver_ne_refuse t s')
  | go s'' => exact Grammar.run_go htoken (hstep.trans hdeliver)
  | finish t' => exact Grammar.run_finish htoken (hstep.trans hdeliver)

/-- A container that has trees still to come takes one, and the run goes on. -/
theorem delivered_more {t : Node Atom} {left : Nat} {f : Frame Atom} {outer : State}
    (h : 1 < left) (rest : Bytes) :
    delivered t ((left, f) :: outer) rest = grammar.run rest ((left - 1, f.add t) :: outer) := by
  rw [delivered, deliver, if_neg (by omega)]

/-- The last tree of a container completes it. -/
theorem delivered_last {t : Node Atom} {f : Frame Atom} {outer : State} (rest : Bytes) :
    delivered t ((1, f) :: outer) rest = delivered (f.add t).close outer rest := by
  rw [delivered, deliver, if_pos (Nat.le_refl 1)]
  rfl

mutual

/-- Where a tree may come, its bytes are taken and the tree delivered. -/
theorem run_printNode (t : Node Atom) (ht : Node.Fits t) (s : State) (rest : Bytes) :
    grammar.run (printNode t ++ rest) s = delivered t s rest := by
  cases t with
  | broken => exact ht.elim
  | scalar x => exact run_deliver (next_print ht rest) rfl
  | seq xs =>
    have htoken := Token.next_list ht.1 (printItems xs ++ rest)
    rw [printNode, List.append_assoc]
    cases xs with
    | broken => exact ht.2.elim
    | done => exact run_deliver htoken rfl
    | cons u us =>
      have hstep : step (.openList (countItems (.cons u us))) s
          = .go ((countItems (.cons u us), .items []) :: s) := by
        rw [step, openFrame, if_neg]
        exact Nat.succ_ne_zero _
      rw [Grammar.run_go htoken hstep]
      exact run_printItems (.cons u us) ht.2 (Nat.succ_ne_zero _) [] s rest
  | map es =>
    have htoken := Token.next_map ht.1 (printEntries es ++ rest)
    rw [printNode, List.append_assoc]
    cases es with
    | broken => exact ht.2.elim
    | done => exact run_deliver htoken rfl
    | cons key u us =>
      have hstep : step (.openMap (countEntries (.cons key u us))) s
          = .go ((2 * countEntries (.cons key u us), .entries [] none) :: s) := by
        rw [step, openFrame, if_neg]
        simp only [countEntries]
        omega
      rw [Grammar.run_go htoken hstep]
      exact run_printEntries (.cons key u us) ht.2 (Nat.succ_ne_zero _) [] s rest

/-- The items still to come are taken, and the list delivered with those that have been
collected. -/
theorem run_printItems (xs : Items Atom) (hxs : Items.Fits xs) (hne : countItems xs ≠ 0)
    (rev : List (Node Atom)) (outer : State) (rest : Bytes) :
    grammar.run (printItems xs ++ rest) ((countItems xs, .items rev) :: outer)
      = delivered (.seq (.prepend rev xs)) outer rest := by
  cases xs with
  | done => exact absurd rfl hne
  | broken => exact hxs.elim
  | cons t xs =>
    rw [printItems, List.append_assoc, run_printNode t hxs.1]
    cases xs with
    | done => exact delivered_last rest
    | broken => exact hxs.2.elim
    | cons u xs =>
      rw [delivered_more (by simp only [countItems]; omega)]
      exact run_printItems (.cons u xs) hxs.2 (Nat.succ_ne_zero _) (t :: rev) outer rest

/-- The entries still to come are taken, and the map delivered with those that have
been collected. -/
theorem run_printEntries (es : Entries Atom) (hes : Entries.Fits es)
    (hne : countEntries es ≠ 0) (rev : List (Node Atom × Node Atom)) (outer : State)
    (rest : Bytes) :
    grammar.run (printEntries es ++ rest) ((2 * countEntries es, .entries rev none) :: outer)
      = delivered (.map (.prepend rev es)) outer rest := by
  cases es with
  | done => exact absurd rfl hne
  | broken => exact hes.elim
  | cons key t es =>
    -- a key and its value are a tree each, so a map counts twice its entries
    rw [printEntries, List.append_assoc, List.append_assoc, run_printNode key hes.1,
      delivered_more (by simp only [countEntries]; omega), run_printNode t hes.2.1]
    cases es with
    | done => exact delivered_last rest
    | broken => exact hes.2.2.elim
    | cons key' u es =>
      rw [delivered_more (by simp only [countEntries]; omega)]
      exact run_printEntries (.cons key' u es) hes.2.2 (Nat.succ_ne_zero _) ((key, t) :: rev)
        outer rest

end

/-- A printed tree is parsed back, and nothing is left over. -/
theorem parse_printNode {t : Node Atom} (ht : Node.Fits t) :
    parse (printNode t) = ⟨t, some []⟩ := by
  have hrun := run_printNode t ht [] []
  rw [List.append_nil] at hrun
  exact hrun

end Conneg.MsgPack
