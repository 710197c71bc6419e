import Conneg.Json.Document
import Conneg.Proofs.Json.Number
import Conneg.Proofs.Json.Quoting
import Conneg.Proofs.Wire.Written

/-!
# A printed tree is parsed back

The parser keeps its place and the open containers in its state, so what it does
with a printed tree is stated for any state in which a value may begin: it takes
the text of the tree, delivers the tree to the innermost container, and goes on
with what follows (`run_printNode`). Within a list or object the same holds of all
the items or entries that are still to come, whatever has been collected before
(`run_printItems`, `run_printEntries`).

A number ends only where something else begins. Inside a container that is a comma
or the closing bracket, and at the end of the body there is nothing more.
-/

namespace Conneg.Json

open Wire

/-! ## Tokens -/

/-- Whether a scalar is one token that ends where its text does. -/
def Atom.Printable : Atom → Prop
  | .number n => n.Spelled
  | .text raw => Quoting.Passes raw
  | _ => True

/-- Whether a tree can be a key. -/
def IsKey (t : Node Atom) : Prop := ∃ raw, t = .scalar (.text raw) ∧ Quoting.Passes raw

namespace Token

theorem next_text {raw : Bytes} (h : Quoting.Passes raw) (rest : Bytes) :
    next (0x22 :: raw ++ [0x22] ++ rest) = some (.atom (.text raw), rest) := by
  have happend : 0x22 :: raw ++ [0x22] ++ rest = 0x22 :: (raw ++ 0x22 :: rest) := by
    simp
  rw [happend]
  show (Quoting.scan (raw ++ 0x22 :: rest) []).map _ = _
  rw [h.scan_quote]
  rfl

/-- A byte between the comma and the colon begins a number. -/
theorem next_number {b : UInt8} (hlow : 0x2C < b.toNat) (hhigh : b.toNat < 0x3A) (bs : Bytes) :
    next (b :: bs) = (Number.scan (b :: bs)).map fun (n, rest) => (.atom (.number n), rest) := by
  have hne : ∀ c : UInt8, c.toNat ≤ 0x2C ∨ 0x3A ≤ c.toNat → b ≠ c := by
    rintro c hc rfl
    omega
  have hblank : ¬ isBlank b = true := by
    have h1 : b ≠ 0x20 := hne _ (by decide)
    have h2 : b ≠ 0x09 := hne _ (by decide)
    have h3 : b ≠ 0x0A := hne _ (by decide)
    have h4 : b ≠ 0x0D := hne _ (by decide)
    simp [isBlank, h1, h2, h3, h4]
  have hdrop : (b :: bs).dropWhile isBlank = b :: bs := List.dropWhile_cons_of_neg hblank
  unfold next
  rw [hdrop]
  show ofByte b bs = _
  rw [ofByte, if_neg (hne _ (by decide)), if_neg (hne _ (by decide)),
    if_neg (hne _ (by decide)), if_neg (hne _ (by decide)), if_neg (hne _ (by decide)),
    if_neg (hne _ (by decide)), if_neg (hne _ (by decide)), if_neg (hne _ (by decide)),
    if_neg (hne _ (by decide)), if_neg (hne _ (by decide))]

/-- The text of a number begins with a minus or a digit. -/
theorem print_eq_cons {n : Number} (hn : n.Spelled) (rest : Bytes) :
    ∃ b bs, n.print ++ rest = b :: bs ∧ 0x2C < b.toNat ∧ b.toNat < 0x3A := by
  rw [Number.print_append]
  cases n.negative with
  | true => exact ⟨0x2D, _, rfl, by decide, by decide⟩
  | false =>
    cases hw : n.whole with
    | nil => exact absurd hw hn.whole
    | cons d ds =>
      have hd := Number.toNat_digitByte d
      exact ⟨Number.digitByte d, _, rfl, by omega, by omega⟩

theorem next_print {x : Atom} (hx : x.Printable) {rest : Bytes} (hrest : Number.Ends rest) :
    next (x.print ++ rest) = some (.atom x, rest) := by
  cases x with
  | null => rfl
  | bool b => cases b <;> rfl
  | number n =>
    obtain ⟨b, bs, hcons, hlow, hhigh⟩ := print_eq_cons hx rest
    have hscan := Number.scan_print hx hrest
    show next (n.print ++ rest) = _
    rw [hcons] at hscan ⊢
    rw [next_number hlow hhigh, hscan]
    rfl
  | text raw => exact next_text hx rest

end Token

/-! ## Runs -/

/-- What is read once a value is complete: the value, or what its container
becomes. -/
def delivered (t : Node Atom) (frames : List (Frame Atom)) (rest : Bytes) : Parsed Atom :=
  match frames with
  | [] => ⟨t, some rest⟩
  | f :: fs => grammar.run rest ⟨.separator, f.add t :: fs⟩

/-- A token that completes a value delivers it. -/
theorem run_deliver {bs rest : Bytes} {x : Token} {s : State} {t : Node Atom}
    {frames : List (Frame Atom)} (htoken : Token.next bs = some (x, rest))
    (hstep : step x s = deliver t frames) : grammar.run bs s = delivered t frames rest := by
  cases frames with
  | nil => exact Grammar.run_finish htoken hstep
  | cons f fs => exact Grammar.run_go htoken hstep

/-- The text of a further item, or the end of a list, ends a number. -/
theorem ends_printItems (xs : Items Atom) (rest : Bytes) :
    Number.Ends (printItems false xs ++ 0x5D :: rest) := by
  cases xs with
  | done | broken => exact Number.ends_cons rest rfl
  | cons t rest' => exact Number.ends_cons _ rfl

/-- The text of a further entry, or the end of an object, ends a number. -/
theorem ends_printEntries (es : Entries Atom) (rest : Bytes) :
    Number.Ends (printEntries false es ++ 0x7D :: rest) := by
  cases es with
  | done | broken => exact Number.ends_cons rest rfl
  | cons key t rest' => exact Number.ends_cons _ rfl

/-- A key and its colon are taken, where a key may come. -/
theorem run_key {key : Node Atom} (hkey : IsKey key) {place : Place}
    (hplace : place = .firstKey ∨ place = .key) (rev : List (Node Atom × Node Atom))
    (fs : List (Frame Atom)) (rest : Bytes) :
    grammar.run (printNode key ++ 0x3A :: rest) ⟨place, .entries rev none :: fs⟩
      = grammar.run rest ⟨.value, .entries rev (some key) :: fs⟩ := by
  obtain ⟨raw, rfl, hraw⟩ := hkey
  have htoken : grammar.token (printNode (.scalar (.text raw)) ++ 0x3A :: rest)
      = some (.atom (.text raw), 0x3A :: rest) := Token.next_text hraw _
  have hstep : step (.atom (.text raw)) ⟨place, .entries rev none :: fs⟩
      = .go ⟨.colon, .entries rev (some (.scalar (.text raw))) :: fs⟩ := by
    rcases hplace with rfl | rfl <;> rfl
  rw [Grammar.run_go htoken hstep]
  exact Grammar.run_go (t := .colon) rfl rfl

mutual

/-- Where a value may begin, the text of a tree is taken and the tree delivered. -/
theorem run_printNode (t : Node Atom) (ht : t.Sound Atom.Printable IsKey) {place : Place}
    (hplace : place = .value ∨ place = .firstItem) (frames : List (Frame Atom)) {rest : Bytes}
    (hrest : Number.Ends rest) :
    grammar.run (printNode t ++ rest) ⟨place, frames⟩ = delivered t frames rest := by
  cases t with
  | broken => exact ht.elim
  | scalar x =>
    refine run_deliver (Token.next_print ht hrest) ?_
    rcases hplace with rfl | rfl <;> rfl
  | seq xs =>
    have happend : printNode (.seq xs) ++ rest = 0x5B :: (printItems true xs ++ 0x5D :: rest) := by
      simp [printNode]
    have hstep : step .openList ⟨place, frames⟩ = .go ⟨.firstItem, .items [] :: frames⟩ := by
      rcases hplace with rfl | rfl <;> rfl
    rw [happend, Grammar.run_go (t := .openList) rfl hstep]
    exact run_printItems xs ht true [] frames rest
  | map es =>
    have happend : printNode (.map es) ++ rest
        = 0x7B :: (printEntries true es ++ 0x7D :: rest) := by
      simp [printNode]
    have hstep : step .openObject ⟨place, frames⟩
        = .go ⟨.firstKey, .entries [] none :: frames⟩ := by
      rcases hplace with rfl | rfl <;> rfl
    rw [happend, Grammar.run_go (t := .openObject) rfl hstep]
    exact run_printEntries es ht true [] frames rest

/-- The text of the items still to come is taken, and the list delivered with those
that have been collected. -/
theorem run_printItems (xs : Items Atom) (hxs : xs.Sound Atom.Printable IsKey) (first : Bool)
    (rev : List (Node Atom)) (fs : List (Frame Atom)) (rest : Bytes) :
    grammar.run (printItems first xs ++ 0x5D :: rest)
        ⟨if first then .firstItem else .separator, .items rev :: fs⟩
      = delivered (.seq (.prepend rev xs)) fs rest := by
  cases xs with
  | broken => exact hxs.elim
  | done => cases first <;> exact run_deliver (x := .closeList) rfl rfl
  | cons t xs =>
    have hrest := ends_printItems xs rest
    cases first with
    | true =>
      have happend : printItems true (.cons t xs) ++ 0x5D :: rest
          = printNode t ++ (printItems false xs ++ 0x5D :: rest) := by
        simp [printItems]
      rw [happend, if_pos rfl, run_printNode t hxs.1 (.inr rfl) (.items rev :: fs) hrest]
      exact run_printItems xs hxs.2 false (t :: rev) fs rest
    | false =>
      have happend : printItems false (.cons t xs) ++ 0x5D :: rest
          = 0x2C :: (printNode t ++ (printItems false xs ++ 0x5D :: rest)) := by
        simp [printItems]
      have hcomma : grammar.run (0x2C :: (printNode t ++ (printItems false xs ++ 0x5D :: rest)))
            ⟨.separator, .items rev :: fs⟩
          = grammar.run (printNode t ++ (printItems false xs ++ 0x5D :: rest))
            ⟨.value, .items rev :: fs⟩ := Grammar.run_go (t := .comma) rfl rfl
      rw [happend, if_neg Bool.false_ne_true, hcomma,
        run_printNode t hxs.1 (.inl rfl) (.items rev :: fs) hrest]
      exact run_printItems xs hxs.2 false (t :: rev) fs rest

/-- The text of the entries still to come is taken, and the object delivered with
those that have been collected. -/
theorem run_printEntries (es : Entries Atom) (hes : es.Sound Atom.Printable IsKey)
    (first : Bool) (rev : List (Node Atom × Node Atom)) (fs : List (Frame Atom))
    (rest : Bytes) :
    grammar.run (printEntries first es ++ 0x7D :: rest)
        ⟨if first then .firstKey else .separator, .entries rev none :: fs⟩
      = delivered (.map (.prepend rev es)) fs rest := by
  cases es with
  | broken => exact hes.elim
  | done => cases first <;> exact run_deliver (x := .closeObject) rfl rfl
  | cons key t es =>
    have hrest := ends_printEntries es rest
    have hvalue : grammar.run (printNode t ++ (printEntries false es ++ 0x7D :: rest))
          ⟨.value, .entries rev (some key) :: fs⟩
        = delivered (.map (.prepend rev (.cons key t es))) fs rest := by
      rw [run_printNode t hes.2.1 (.inl rfl) (.entries rev (some key) :: fs) hrest]
      exact run_printEntries es hes.2.2 false ((key, t) :: rev) fs rest
    cases first with
    | true =>
      have happend : printEntries true (.cons key t es) ++ 0x7D :: rest
          = printNode key ++ 0x3A :: (printNode t ++ (printEntries false es ++ 0x7D :: rest)) := by
        simp [printEntries]
      rw [happend, if_pos rfl, run_key hes.1 (.inl rfl)]
      exact hvalue
    | false =>
      have happend : printEntries false (.cons key t es) ++ 0x7D :: rest
          = 0x2C :: (printNode key ++
            0x3A :: (printNode t ++ (printEntries false es ++ 0x7D :: rest))) := by
        simp [printEntries]
      have hcomma : ∀ bs, grammar.run (0x2C :: bs) ⟨.separator, .entries rev none :: fs⟩
          = grammar.run bs ⟨.key, .entries rev none :: fs⟩ :=
        fun bs => Grammar.run_go (t := .comma) rfl rfl
      rw [happend, if_neg Bool.false_ne_true, hcomma, run_key hes.1 (.inr rfl)]
      exact hvalue

end

/-- A printed tree is parsed back, and nothing is left over. -/
theorem parse_printNode {t : Node Atom} (ht : t.Sound Atom.Printable IsKey) :
    parse (printNode t) = ⟨t, some []⟩ := by
  have hrun := run_printNode t ht (.inl rfl) [] Number.ends_nil
  rw [List.append_nil] at hrun
  exact hrun

end Conneg.Json
