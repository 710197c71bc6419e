import Conneg.Proofs.Bson.Parts
import Conneg.Proofs.Bson.Value

/-!
# Only documents are whole

If nothing is broken in what is read of a body, the body is a document (`exists_document`): each
payload that is whole is that of a value (`exists_value_of_takes`), and a key and a value make a
member.

The induction follows the reader. It has to look ahead: whether an element is whole is only seen
in the elements that come out in the end (`mem_elements`).
-/

namespace Conneg

namespace Wire

variable {σ : Type} {b : Budget}

theorem Items.whole_of_prepend {rev : List (Node σ)} {tail : Items σ}
    (h : (Items.prepend rev tail).whole b = true) :
    (∀ t ∈ rev, t.whole b = true) ∧ tail.whole b = true := by
  induction rev generalizing tail with
  | nil => exact ⟨nofun, h⟩
  | cons t rev ih =>
    obtain ⟨hrev, htail⟩ := ih h
    obtain ⟨ht, htail⟩ := Bool.and_eq_true_iff.1 htail
    exact ⟨List.forall_mem_cons.2 ⟨ht, hrev⟩, htail⟩

theorem Entries.whole_of_prepend {rev : List (Node σ × Node σ)} {tail : Entries σ}
    (h : (Entries.prepend rev tail).whole b = true) :
    (∀ e ∈ rev, e.2.whole b = true) ∧ tail.whole b = true := by
  induction rev generalizing tail with
  | nil => exact ⟨nofun, h⟩
  | cons e rev ih =>
    obtain ⟨hrev, htail⟩ := ih h
    obtain ⟨he, htail⟩ := Bool.and_eq_true_iff.1 htail
    exact ⟨List.forall_mem_cons.2 ⟨(Bool.and_eq_true_iff.1 he).2, hrev⟩, htail⟩

end Wire

namespace Bson

open Wire

variable {bs rest body : Bytes}

/-! ## Values -/

/-- Four bytes are those of a number. -/
theorem exists_word (h : bs.length = 4) : ∃ n : UInt32, bs = Bytes.ofNatLE 4 n.toNat := by
  have hlt : Bytes.toNatLE bs < Nat.pow 256 4 := by
    rw [← h]
    exact Bytes.toNatLE_lt bs
  refine ⟨UInt32.ofNat (Bytes.toNatLE bs), ?_⟩
  rw [UInt32.toNat_ofNat_of_lt' hlt, ← h, Bytes.ofNatLE_toNatLE]

/-- Elements of a type that nests are those of a document, a list or code with its scope. -/
theorem eq_of_takes_nested {e : ElementType} {nest : Nest}
    (h : e.layout.Takes bs (.nested nest body)) :
    ∃ elements, body = elements ++ [0] ∧ e.byte = (nest.print elements).1 ∧
      bs = (nest.print elements).2 := by
  cases e with
  | document =>
    obtain ⟨elements, hbs, heq⟩ := h
    obtain ⟨rfl, rfl⟩ := Payload.nested.inj heq
    exact ⟨elements, rfl, rfl, hbs⟩
  | list =>
    obtain ⟨elements, hbs, heq⟩ := h
    obtain ⟨rfl, rfl⟩ := Payload.nested.inj heq
    exact ⟨elements, rfl, rfl, hbs⟩
  | scopedCode =>
    obtain ⟨code, elements, hbs, heq⟩ := h
    obtain ⟨rfl, rfl⟩ := Payload.nested.inj heq
    exact ⟨elements, rfl, rfl, hbs⟩
  | _ => simp [ElementType.layout, Layout.Takes] at h

/-- What is whole of a type that does not nest is a value. -/
theorem exists_value_of_takes {e : ElementType} {t : Node Atom}
    (h : e.layout.Takes bs (.whole t)) (hwhole : t.whole none = true) :
    ∃ v : Value, e.byte = v.print.1 ∧ bs = v.print.2 := by
  cases e with
  | double =>
    obtain ⟨hlen, -⟩ := h
    have hlt : Bytes.toNatLE bs < Nat.pow 256 8 := by
      rw [← hlen]
      exact Bytes.toNatLE_lt bs
    refine ⟨.scalar (.double ⟨UInt64.ofNat (Bytes.toNatLE bs)⟩) trivial, rfl, ?_⟩
    have hword : (UInt64.ofNat (Bytes.toNatLE bs)).toNat = Bytes.toNatLE bs :=
      UInt64.toNat_ofNat_of_lt' hlt
    simp only [Value.print, Atom.print, Binary64.word, hword]
    rw [← hlen, Bytes.ofNatLE_toNatLE]
  | text =>
    obtain ⟨s, hbs, -⟩ := h
    exact ⟨.scalar (.text s) trivial, rfl, hbs⟩
  | document | list | scopedCode => simp [ElementType.layout, Layout.Takes] at h
  | binary =>
    obtain ⟨subtype, data, hbs, -⟩ := h
    exact ⟨.binary subtype data, rfl, hbs⟩
  | undefined => exact ⟨.undefined, rfl, List.length_eq_zero_iff.1 h.1⟩
  | objectId => exact ⟨.objectId bs h.1, rfl, rfl⟩
  | bool =>
    obtain ⟨-, heq⟩ := h
    obtain rfl := Payload.whole.inj heq
    rw [boolNode] at hwhole
    split at hwhole
    · next hfalse => exact ⟨.scalar (.bool false) trivial, rfl, hfalse⟩
    · split at hwhole
      · next htrue => exact ⟨.scalar (.bool true) trivial, rfl, htrue⟩
      · cases hwhole
  | date =>
    obtain ⟨hlow, hhigh⟩ := signedLE_bounds (by decide) h.1
    exact ⟨.date ⟨signedLE bs, hlow, Int.le_of_lt_add_one hhigh⟩, rfl,
      (ofNatLE_signedLE (by decide) h.1).symm⟩
  | null => exact ⟨.scalar .null trivial, rfl, List.length_eq_zero_iff.1 h.1⟩
  | regex =>
    obtain ⟨pattern, options, hbs, -⟩ := h
    exact ⟨.regex pattern options, rfl, hbs⟩
  | pointer =>
    obtain ⟨collection, id, hid, hbs, -⟩ := h
    exact ⟨.pointer collection id hid, rfl, hbs⟩
  | code =>
    obtain ⟨s, hbs, -⟩ := h
    exact ⟨.code s, rfl, hbs⟩
  | symbol =>
    obtain ⟨s, hbs, -⟩ := h
    exact ⟨.symbol s, rfl, hbs⟩
  | int32 =>
    exact ⟨.scalar (.int32 _) (signedLE_bounds (by decide) h.1), rfl,
      (ofNatLE_signedLE (by decide) h.1).symm⟩
  | timestamp =>
    have hlen : bs.length = 8 := h.1
    have hfront : (bs.take 4).length = 4 := by simp [hlen]
    have hback : (bs.drop 4).length = 4 := by simp [hlen]
    obtain ⟨increment, hfront⟩ := exists_word hfront
    obtain ⟨time, hback⟩ := exists_word hback
    refine ⟨.timestamp time increment, rfl, ?_⟩
    rw [← List.take_append_drop 4 bs, hfront, hback]
    rfl
  | int64 =>
    exact ⟨.scalar (.int64 _) (signedLE_bounds (by decide) h.1), rfl,
      (ofNatLE_signedLE (by decide) h.1).symm⟩
  | decimal => exact ⟨.decimal bs h.1, rfl, rfl⟩
  | maxKey => exact ⟨.maxKey, rfl, List.length_eq_zero_iff.1 h.1⟩
  | minKey => exact ⟨.minKey, rfl, List.length_eq_zero_iff.1 h.1⟩

/-! ## Documents -/

section

variable {es : List (Node Atom × Node Atom)} {ended : Bool}

/-- The elements of a document that is whole are whole, and end. -/
theorem whole_of_documentNode (h : (documentNode es ended).whole none = true) :
    (∀ e ∈ es, e.2.whole none = true) ∧ ended = true := by
  obtain ⟨hes, htail⟩ := Entries.whole_of_prepend h
  cases ended with
  | true => exact ⟨hes, rfl⟩
  | false => cases htail

/-- So are those of any other tree that they are nested in. -/
theorem Nest.whole_of_tree {nest : Nest} (h : (nest.tree es ended).whole none = true) :
    (∀ e ∈ es, e.2.whole none = true) ∧ ended = true := by
  cases nest with
  | document => exact whole_of_documentNode h
  | list =>
    obtain ⟨hes, htail⟩ := Items.whole_of_prepend h
    cases ended with
    | true => exact ⟨List.forall_mem_map.1 hes, rfl⟩
    | false => cases htail
  | scope code =>
    obtain ⟨hscope, -⟩ := Bool.and_eq_true_iff.1 h
    exact whole_of_documentNode (Bool.and_eq_true_iff.1 hscope).2

end

/-- What has been collected stays. -/
theorem mem_elements {e : Node Atom × Node Atom} {rev : List (Node Atom × Node Atom)}
    (h : e ∈ rev) : e ∈ (elements bs rev).1 := by
  fun_induction elements bs rev with
  | case1 | case2 | case3 | case4 => exact h
  | case5 _ _ _ _ _ _ _ _ _ _ ih => exact ih (List.mem_cons_of_mem _ h)
  | case6 _ _ _ _ _ _ _ _ _ _ _ _ _ _ _ ih => exact ih (List.mem_cons_of_mem _ h)

/-- An element in front of members is a member. -/
theorem exists_members_cons {tag : UInt8} {key : String} {after : Bytes} {v : Value}
    {members : List (Key × Value)} (hkey : key? bs = some (key, after)) (htag : tag = v.print.1)
    (hafter : after = v.print.2 ++ rest) (hrest : rest = Value.printMembers members ++ [0]) :
    ∃ members, tag :: bs = Value.printMembers members ++ [0] := by
  obtain ⟨hnul, rfl⟩ := eq_of_key? hkey
  refine ⟨(⟨key, hnul⟩, v) :: members, ?_⟩
  simp only [Value.printMembers, element, htag, hafter, hrest, List.cons_append,
    List.append_assoc]

/-- Elements that are whole and end are those of members. -/
theorem exists_members (rev : List (Node Atom × Node Atom)) (hends : (elements bs rev).2 = true)
    (hwhole : ∀ e ∈ (elements bs rev).1, e.2.whole none = true) :
    ∃ members, bs = Value.printMembers members ++ [0] := by
  fun_induction elements bs rev with
  | case1 | case3 | case4 => cases hends
  | case2 rev b =>
    obtain rfl := eq_of_beq hends
    exact ⟨[], rfl⟩
  | case5 rev tag b bs key after hk t rest hp ih =>
    obtain ⟨members, hrest⟩ := ih hends hwhole
    have ht : t.whole none = true := hwhole _ (mem_elements List.mem_cons_self)
    rcases takes_of_payload? hp with heq | ⟨e, front, htag, hafter, htakes⟩
    · obtain rfl := Payload.whole.inj heq
      cases ht
    · obtain ⟨v, hbyte, rfl⟩ := exists_value_of_takes htakes ht
      exact exists_members_cons hk (htag.trans hbyte) hafter hrest
  | case6 rev tag b bs key after hk nest body rest hp es whole helements ihBody ih =>
    obtain ⟨members, hrest⟩ := ih hends hwhole
    have ht : (nest.tree es whole).whole none = true := hwhole _ (mem_elements List.mem_cons_self)
    obtain ⟨hes, hwhole⟩ := Nest.whole_of_tree ht
    rcases takes_of_payload? hp with heq | ⟨e, front, htag, hafter, htakes⟩
    · cases heq
    · obtain ⟨inner, rfl, hbyte, rfl⟩ := eq_of_takes_nested htakes
      rw [helements] at ihBody
      obtain ⟨members', hinner⟩ := ihBody hwhole hes
      obtain rfl := List.append_cancel_right hinner
      exact exists_members_cons (v := .nested nest members') hk (htag.trans hbyte) hafter hrest

/-- A body in which nothing is broken is a document. -/
theorem exists_document (h : (parse body).whole none = true) : ∃ d : Document, d.bytes = body := by
  unfold parse at h
  split at h
  · next front hframe =>
    obtain ⟨hes, hends⟩ := whole_of_documentNode h
    obtain ⟨inner, rfl, rfl, hfits⟩ := eq_of_embedded? hframe
    obtain ⟨members, hinner⟩ := exists_members [] hends hes
    obtain rfl := List.append_cancel_right hinner
    exact ⟨⟨members, hfits⟩, (List.append_nil _).symm⟩
  · cases h

end Bson
end Conneg
