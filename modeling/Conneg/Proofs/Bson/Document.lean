import Conneg.Proofs.Bson.Element
import Conneg.Proofs.Wire.Written

/-!
# A printed document is parsed back

The reader collects the elements of a document last to first. The induction is over
the tree: an element in front of any others is taken off and its tree added to those
collected (`payload?_printNode`), and the elements up to the final zero are the
entries still to come, whatever has been collected before
(`elements_printEntries`, `elements_printItems`). A length fits its four bytes
because the document around it does.
-/

namespace Conneg.Bson

open Wire

/-- Whether a tree can be a key: a text that a NUL can end. -/
def IsKey (t : Node Atom) : Prop := ∃ s, t = .scalar (.text s) ∧ '\x00' ∉ s.toList

/-! ## Elements -/

variable {tag : UInt8} {bs after rest : Bytes} {key : String}

/-- A key is never at the end of the bytes. -/
theorem key?_ne_nil (hk : key? bs = some (key, after)) : ∃ b bs', bs = b :: bs' := by
  cases bs with
  | nil => exact nomatch hk
  | cons b bs' => exact ⟨b, bs', rfl⟩

/-- The tree of a payload, once its bytes are read. -/
def Payload.tree : Payload → Node Atom
  | .whole t => t
  | .nested nest body =>
    let (es, ended) := elements body []
    nest.tree es ended

/-- An element in front of others is read, and its tree collected. -/
theorem elements_payload {p : Payload} (hk : key? bs = some (key, after))
    (hp : payload? tag after = some (p, rest)) (rev : List (Node Atom × Node Atom)) :
    elements (tag :: bs) rev = elements rest ((.scalar (.text key), p.tree) :: rev) := by
  obtain ⟨b, bs', rfl⟩ := key?_ne_nil hk
  rw [elements]
  split
  · next hnone => simp [hk] at hnone
  · next k a hsome =>
    obtain ⟨rfl, rfl⟩ : key = k ∧ after = a := by simpa [hk] using hsome
    -- the reader goes into a payload or not, but collects its tree
    cases p with
    | whole t => split <;> simp_all [Payload.tree]
    | nested nest body => split <;> simp_all [Payload.tree]

/-- The last byte of a document ends it. -/
theorem elements_zero (rev : List (Node Atom × Node Atom)) : elements [0] rev = (rev, true) := by
  rw [elements]
  rfl

/-! ## Documents -/

/-- The index of an item can be a key. -/
theorem nul_notMem_decimalText (n : Nat) : '\x00' ∉ (decimalText n).toList := by
  have hdigit : ∀ d : Digit, d.toChar ≠ '\x00' := by decide
  intro hmem
  rw [decimalText, String.toList_ofList] at hmem
  obtain ⟨d, -, hd⟩ := List.mem_map.1 hmem
  exact hdigit d hd

theorem length_element (tag : UInt8) (key payload : Bytes) :
    payload.length ≤ (element tag key payload).length := by
  simp [element]
  omega

mutual

/-- What is printed of a tree is split off and read as that tree. -/
theorem payload?_printNode (t : Node Atom) (ht : t.Sound Atom.Storable IsKey)
    (hlen : (printNode t).2.length < 2 ^ 31) (rest : Bytes) :
    ∃ p, payload? (printNode t).1 ((printNode t).2 ++ rest) = some (p, rest) ∧ p.tree = t := by
  cases t with
  | broken => exact ht.elim
  | scalar x => exact ⟨_, payload?_print ht hlen rest, rfl⟩
  | seq xs =>
    have hxs : (printItems 0 xs).length < 2 ^ 31 := by
      have hframe := length_frame (printItems 0 xs)
      simp only [printNode] at hlen
      omega
    refine ⟨.nested .list (printItems 0 xs ++ [0]), ?_, ?_⟩
    · exact ElementType.list.payload?_of_takes ⟨_, rfl, rfl⟩ hlen rest
    · obtain ⟨es, hes, hprepend⟩ := elements_printItems xs ht 0 hxs []
      simp only [Payload.tree, Nest.tree, hes, if_true, hprepend]
      rfl
  | map es =>
    have hes : (printEntries es).length < 2 ^ 31 := by
      have hframe := length_frame (printEntries es)
      simp only [printNode] at hlen
      omega
    refine ⟨.nested .document (printEntries es ++ [0]), ?_, ?_⟩
    · exact ElementType.document.payload?_of_takes ⟨_, rfl, rfl⟩ hlen rest
    · obtain ⟨es', hes', hprepend⟩ := elements_printEntries es ht hes []
      simp only [Payload.tree, Nest.tree, documentNode, hes', if_true, hprepend]
      rfl

/-- The items still to come are read, onto those that have been collected. -/
theorem elements_printItems (xs : Items Atom) (hxs : xs.Sound Atom.Storable IsKey) (i : Nat)
    (hlen : (printItems i xs).length < 2 ^ 31) (rev : List (Node Atom × Node Atom)) :
    ∃ es, elements (printItems i xs ++ [0]) rev = (es, true) ∧
      Items.prepend (es.map Prod.snd) .done = Items.prepend (rev.map Prod.snd) xs := by
  cases xs with
  | broken => exact hxs.elim
  | done => exact ⟨rev, elements_zero rev, rfl⟩
  | cons t xs =>
    have happend : printItems i (.cons t xs) ++ [0] = (printNode t).1 ::
        (Utf8.encode (decimalText i) ++
          0 :: ((printNode t).2 ++ (printItems (i + 1) xs ++ [0]))) := by
      simp [printItems, element]
    have hsize := length_element (printNode t).1 (Utf8.encode (decimalText i)) (printNode t).2
    simp only [printItems, List.length_append] at hlen
    obtain ⟨p, hp, hpt⟩ := payload?_printNode t hxs.1 (by omega) (printItems (i + 1) xs ++ [0])
    have hkey := key?_encode (nul_notMem_decimalText i)
      ((printNode t).2 ++ (printItems (i + 1) xs ++ [0]))
    -- the index is printed as a key, and a reader of a list drops it
    rw [happend, elements_payload hkey hp, hpt]
    exact elements_printItems xs hxs.2 (i + 1) (by omega) _

/-- The entries still to come are read, onto those that have been collected. -/
theorem elements_printEntries (es : Entries Atom) (hes : es.Sound Atom.Storable IsKey)
    (hlen : (printEntries es).length < 2 ^ 31) (rev : List (Node Atom × Node Atom)) :
    ∃ es', elements (printEntries es ++ [0]) rev = (es', true) ∧
      Entries.prepend es' .done = Entries.prepend rev es := by
  cases es with
  | broken => exact hes.elim
  | done => exact ⟨rev, elements_zero rev, rfl⟩
  | cons k t es =>
    obtain ⟨⟨s, rfl, hs⟩, ht, hes⟩ := hes
    have happend : printEntries (.cons (.scalar (.text s)) t es) ++ [0]
        = (printNode t).1 ::
          (Utf8.encode s ++ 0 :: ((printNode t).2 ++ (printEntries es ++ [0]))) := by
      simp [printEntries, element, printKey, Atom.asKey?]
    have hsize := length_element (printNode t).1 (printKey (.scalar (.text s))) (printNode t).2
    simp only [printEntries, List.length_append] at hlen
    obtain ⟨p, hp, hpt⟩ := payload?_printNode t ht (by omega) (printEntries es ++ [0])
    rw [happend, elements_payload (key?_encode hs _) hp, hpt]
    exact elements_printEntries es hes (by omega) _

end

/-- A printed document is parsed back. -/
theorem parse_frame {es : Entries Atom} (hes : es.Sound Atom.Storable IsKey)
    (hlen : (frame (printEntries es)).length < 2 ^ 31) :
    parse (frame (printEntries es)) = .map es := by
  have hsize := length_frame (printEntries es)
  have hembedded := embedded?_frame hlen []
  rw [List.append_nil] at hembedded
  obtain ⟨es', hes', hprepend⟩ := elements_printEntries es hes (by omega) []
  simp only [parse, hembedded, hes', documentNode, if_true, hprepend]
  rfl

end Conneg.Bson
