import Conneg.ContentType
import Mathlib.Data.List.TakeWhile

/-!
# Trimmed text and its fields

A text is what `trim` leaves of it with white space around (`exists_trim`), and white
space around a text does not show once it is trimmed (`trim_blank_append`). So a text is
trimmed only once, however often that is done.

A text with a separator has the fields of what stands on its two sides
(`fieldsOf_append`). Neither the semicolon nor the comma is white space, so trimming a
text takes no part of it to another field, and the media type of a trimmed text is that
of the text (`essence_trim`).
-/

namespace Conneg.Text

variable {sep : Char} {cs left right : List Char}

/-! ## White space -/

/-- Whether a text is nothing but white space. -/
def IsBlankText (cs : List Char) : Prop := ∀ c ∈ cs, isBlank c = true

theorem trim_blank_append (h : IsBlankText left) (cs : List Char) :
    trim (left ++ cs) = trim cs := by
  rw [trim, List.dropWhile_append_of_pos h, trim]

/-- A text is what is left of it once trimmed, with white space around. -/
theorem exists_trim (cs : List Char) :
    ∃ left right, IsBlankText left ∧ IsBlankText right ∧ cs = left ++ trim cs ++ right := by
  have hmem : ∀ {ds : List Char}, IsBlankText (ds.takeWhile isBlank) := by
    intro ds c hc
    exact List.mem_takeWhile_imp hc
  refine ⟨cs.takeWhile isBlank, ((cs.dropWhile isBlank).reverse.takeWhile isBlank).reverse,
    hmem, fun c hc => hmem c (List.mem_reverse.1 hc), ?_⟩
  have hright : trim cs ++ ((cs.dropWhile isBlank).reverse.takeWhile isBlank).reverse
      = cs.dropWhile isBlank := by
    rw [trim, ← List.reverse_append, List.takeWhile_append_dropWhile, List.reverse_reverse]
  rw [List.append_assoc, hright, List.takeWhile_append_dropWhile]

theorem trim_append_blank (h : IsBlankText right) (cs : List Char) :
    trim (cs ++ right) = trim cs := by
  have hreverse : IsBlankText right.reverse := fun c hc => h c (List.mem_reverse.1 hc)
  unfold trim
  rw [List.dropWhile_append]
  split
  · next hnil =>
    have hright : right.dropWhile isBlank = [] := List.dropWhile_eq_nil_iff.2 h
    rw [List.isEmpty_iff.1 hnil, hright]
  · rw [List.reverse_append, List.dropWhile_append_of_pos hreverse]

/-- A text is trimmed to nothing exactly if it is nothing but white space. -/
theorem trim_eq_nil_iff : trim cs = [] ↔ IsBlankText cs := by
  constructor
  · intro h
    obtain ⟨left, right, hleft, hright, hcs⟩ := exists_trim cs
    rw [h, List.append_nil] at hcs
    rw [hcs]
    intro c hc
    exact (List.mem_append.1 hc).elim (hleft c) (hright c)
  · intro h
    have htrim := trim_append_blank h []
    rw [List.nil_append] at htrim
    exact htrim

theorem trim_trim (cs : List Char) : trim (trim cs) = trim cs := by
  obtain ⟨left, right, hleft, hright, hcs⟩ := exists_trim cs
  calc trim (trim cs) = trim (trim cs ++ right) := (trim_append_blank hright _).symm
    _ = trim (left ++ (trim cs ++ right)) := (trim_blank_append hleft _).symm
    _ = trim cs := by rw [← List.append_assoc, ← hcs]

/-- Two characters in front of a text stay when it is trimmed, if they are not white space. -/
theorem exists_trim_cons_cons {c d : Char} (hc : isBlank c = false) (hd : isBlank d = false)
    (cs : List Char) : ∃ rest, trim (c :: d :: cs) = c :: d :: rest ∧ trim rest = trim cs := by
  have hleft : (c :: d :: cs).dropWhile isBlank = c :: d :: cs :=
    List.dropWhile_cons_of_neg (by rw [hc]; exact Bool.false_ne_true)
  have hpair : [d, c].dropWhile isBlank = [d, c] :=
    List.dropWhile_cons_of_neg (by rw [hd]; exact Bool.false_ne_true)
  have htrim : trim (c :: d :: cs) = c :: d :: (cs.reverse.dropWhile isBlank).reverse := by
    rw [trim, hleft, List.reverse_cons, List.reverse_cons, List.append_assoc,
      List.singleton_append, List.dropWhile_append]
    split
    · next hnil => rw [hpair, List.isEmpty_iff.1 hnil]; rfl
    · rw [List.reverse_append]; rfl
  have hright : IsBlankText (cs.reverse.takeWhile isBlank).reverse :=
    fun x hx => List.mem_takeWhile_imp (List.mem_reverse.1 hx)
  refine ⟨_, htrim, ?_⟩
  rw [← trim_append_blank hright, ← List.reverse_append, List.takeWhile_append_dropWhile,
    List.reverse_reverse]

/-! ## Before and after a separator -/

theorem before_append_of_notMem (h : sep ∉ left) (cs : List Char) :
    before sep (left ++ cs) = left ++ before sep cs :=
  List.takeWhile_append_of_pos fun _ hc => bne_iff_ne.2 fun heq => h (heq ▸ hc)

theorem before_of_notMem (h : sep ∉ cs) : before sep cs = cs := by
  have happend := before_append_of_notMem h []
  rw [List.append_nil] at happend
  rw [happend, before, List.takeWhile_nil, List.append_nil]

theorem before_append_of_mem (h : sep ∈ cs) (right : List Char) :
    before sep (cs ++ right) = before sep cs := by
  induction cs with
  | nil => exact nomatch h
  | cons c cs ih =>
    by_cases hc : c = sep
    · simp [before, hc]
    · have hmem : sep ∈ cs := (List.mem_cons.1 h).resolve_left (Ne.symm hc)
      have hcons : ∀ ds, before sep (c :: ds) = c :: before sep ds := by
        intro ds
        simp [before, hc]
      rw [List.cons_append, hcons, hcons, ih hmem]

theorem notMem_before (sep : Char) (cs : List Char) : sep ∉ before sep cs := by
  intro hmem
  have hne : (sep != sep) = true := List.mem_takeWhile_imp (p := (· != sep)) hmem
  exact bne_iff_ne.1 hne rfl

/-! ## Fields -/

/-- The fields of a text with a separator in it. -/
theorem fieldsOf_append (sep : Char) (a b : List Char) :
    fieldsOf sep (a ++ sep :: b) = fieldsOf sep a ++ fieldsOf sep b := by
  induction a with
  | nil => simp [fieldsOf]
  | cons c a ih =>
    by_cases hc : c = sep
    · simp only [List.cons_append, fieldsOf, if_pos hc, ih]
    · -- the first field of what follows gets one more character, and there is one
      obtain ⟨field, rest, hfields⟩ := List.exists_cons_of_ne_nil (fieldsOf_ne_nil sep a)
      simp only [List.cons_append, fieldsOf, if_neg hc, ih, hfields]

/-- What follows a text without a separator belongs to its last field. -/
theorem fieldsOf_append_of_notMem (h : sep ∉ right) (cs : List Char) :
    ∃ fields last, fieldsOf sep cs = fields ++ [last] ∧
      fieldsOf sep (cs ++ right) = fields ++ [last ++ right] := by
  induction cs with
  | nil => exact ⟨[], [], rfl, fieldsOf_of_notMem h⟩
  | cons c cs ih =>
    obtain ⟨fields, last, hcs, happend⟩ := ih
    by_cases hc : c = sep
    · refine ⟨[] :: fields, last, ?_, ?_⟩ <;>
        simp only [List.cons_append, fieldsOf, if_pos hc, hcs, happend]
    · cases fields with
      | nil =>
        refine ⟨[], c :: last, ?_, ?_⟩ <;>
          simp only [List.cons_append, fieldsOf, if_neg hc, hcs, happend, List.nil_append]
      | cons field fields =>
        refine ⟨(c :: field) :: fields, last, ?_, ?_⟩ <;>
          simp only [List.cons_append, fieldsOf, if_neg hc, hcs, happend]

/-- The first field of a text, and the fields of what follows it. -/
theorem fieldsOf_eq_before_after (sep : Char) (cs : List Char) :
    fieldsOf sep cs
      = before sep cs :: if sep ∈ cs then fieldsOf sep (after sep cs) else [] := by
  split
  · next hmem =>
    obtain ⟨a, b, rfl, ha⟩ := List.eq_append_cons_of_mem hmem
    have hall : ∀ c ∈ a, (c != sep) = true := fun c hc => bne_iff_ne.2 fun heq => ha (heq ▸ hc)
    have hafter : after sep (a ++ sep :: b) = b := by
      rw [after, List.dropWhile_append_of_pos hall, List.dropWhile_cons_of_neg (by simp),
        List.drop_one, List.tail_cons]
    have hbefore : before sep (a ++ sep :: b) = a := by
      rw [before_append_of_notMem ha, before, List.takeWhile_cons_of_neg (by simp),
        List.append_nil]
    rw [hafter, hbefore, fieldsOf_append, fieldsOf_of_notMem ha, List.singleton_append]
  · next hmem => rw [fieldsOf_of_notMem hmem, before_of_notMem hmem]

/-- What is in front of a text and has no separator belongs to its first field. -/
theorem fieldsOf_notMem_append (h : sep ∉ left) (cs : List Char) :
    ∃ first fields, fieldsOf sep cs = first :: fields ∧
      fieldsOf sep (left ++ cs) = (left ++ first) :: fields := by
  obtain ⟨first, fields, hcs⟩ := List.exists_cons_of_ne_nil (fieldsOf_ne_nil sep cs)
  refine ⟨first, fields, hcs, ?_⟩
  induction left with
  | nil => exact hcs
  | cons c left ih =>
    obtain ⟨hc, hleft⟩ := not_or.1 (mt List.mem_cons.2 h)
    simp only [List.cons_append, fieldsOf, if_neg (Ne.symm hc), ih hleft]

theorem notMem_of_isBlankText (hsep : isBlank sep = false) (h : IsBlankText cs) : sep ∉ cs :=
  fun hmem => Bool.false_ne_true (hsep.symm.trans (h sep hmem))

/-- Trimming a text does not show in its fields, once they are trimmed as well. -/
theorem map_trim_fieldsOf_trim (hsep : isBlank sep = false) (cs : List Char) :
    (fieldsOf sep (trim cs)).map trim = (fieldsOf sep cs).map trim := by
  obtain ⟨left, right, hleft, hright, hcs⟩ := exists_trim cs
  obtain ⟨first, fields, hcore, hfirst⟩ :=
    fieldsOf_notMem_append (notMem_of_isBlankText hsep hleft) (trim cs)
  obtain ⟨front, last, hwhole, hlast⟩ :=
    fieldsOf_append_of_notMem (notMem_of_isBlankText hsep hright) (left ++ trim cs)
  have hright' : trim (last ++ right) = trim last := trim_append_blank hright last
  calc (fieldsOf sep (trim cs)).map trim = (fieldsOf sep (left ++ trim cs)).map trim := by
        rw [hcore, hfirst, List.map_cons, List.map_cons, trim_blank_append hleft]
    _ = (fieldsOf sep (left ++ trim cs ++ right)).map trim := by
        rw [hwhole, hlast, List.map_append, List.map_append, List.map_singleton,
          List.map_singleton, hright']
    _ = (fieldsOf sep cs).map trim := by rw [← hcs]

end Conneg.Text

namespace Conneg

open Text

/-- White space around a content type does not change its media type. -/
theorem essence_trim (cs : List Char) : essence (trim cs) = essence cs := by
  obtain ⟨left, right, hleft, hright, hcs⟩ := exists_trim cs
  generalize trim cs = core at hcs
  subst hcs
  have hnotMem : ∀ {ds : List Char}, IsBlankText ds → ';' ∉ ds :=
    notMem_of_isBlankText (by decide)
  unfold essence
  rw [List.append_assoc, before_append_of_notMem (hnotMem hleft), trim_blank_append hleft]
  by_cases hmem : ';' ∈ core
  · rw [before_append_of_mem hmem]
  · rw [before_append_of_notMem hmem, before_of_notMem hmem,
      before_of_notMem (hnotMem hright), trim_append_blank hright]

/-- A media type is its own. -/
theorem essence_essence (cs : List Char) : essence (essence cs) = essence cs := by
  have hmem : ';' ∉ before ';' cs := notMem_before ';' cs
  calc essence (essence cs) = essence (before ';' cs) := essence_trim _
    _ = essence cs := by rw [essence, before_of_notMem hmem, essence]

end Conneg
