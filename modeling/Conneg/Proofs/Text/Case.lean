import Conneg.Proofs.Text.Fields
import Mathlib.Data.List.Forall2

/-!
# Text without regard to case

Folding changes only letters, and letters to letters. So it changes neither what is white
space nor where a separator stands, and a text may be folded before or after it is
trimmed or cut (`trim_fold`, `fieldsOf_fold`, `essence_fold`). Texts that are the same up
to case therefore have media types, and fields, that are the same up to case.

Two texts are folded to the same exactly if they differ in the case of ASCII letters at most
(`sameIgnoringCase_iff_sameUpToCase`).
-/

namespace Conneg.Text

/-! ## Characters -/

theorem isUpper_iff {c : Char} : c.isUpper = true ↔ 65 ≤ c.toNat ∧ c.toNat ≤ 90 := by
  have hupper : c.isUpper = decide (65 ≤ c.val ∧ c.val ≤ 90) := rfl
  rw [hupper, decide_eq_true_iff, UInt32.le_iff_toNat_le, UInt32.le_iff_toNat_le]
  rfl

theorem isLower_iff {c : Char} : c.isLower = true ↔ 97 ≤ c.toNat ∧ c.toNat ≤ 122 := by
  have hlower : c.isLower = (decide (97 ≤ c.val) && decide (c.val ≤ 122)) := rfl
  rw [hlower, Bool.and_eq_true, decide_eq_true_iff, decide_eq_true_iff, UInt32.le_iff_toNat_le,
    UInt32.le_iff_toNat_le]
  rfl

theorem isAlpha_iff {c : Char} :
    c.isAlpha = true ↔ 65 ≤ c.toNat ∧ c.toNat ≤ 90 ∨ 97 ≤ c.toNat ∧ c.toNat ≤ 122 := by
  have halpha : c.isAlpha = (c.isUpper || c.isLower) := rfl
  rw [halpha, Bool.or_eq_true, isUpper_iff, isLower_iff]

/-- A capital is folded to its small letter. -/
theorem toNat_toLower {c : Char} (hlow : 65 ≤ c.toNat) (hhigh : c.toNat ≤ 90) :
    c.toLower.toNat = c.toNat + 32 := by
  have hupper : c.isUpper = true := isUpper_iff.2 ⟨hlow, hhigh⟩
  unfold Char.toLower
  rw [dif_pos (of_decide_eq_true hupper)]
  show (c.val + 32).toNat = c.toNat + 32
  rw [UInt32.toNat_add, Char.toNat_val]
  exact Nat.mod_eq_of_lt (by show c.toNat + 32 < 2 ^ 32; omega)

/-- A character is folded to itself, or it is a capital. -/
theorem toLower_cases (c : Char) :
    c.toLower = c ∨ (65 ≤ c.toNat ∧ c.toNat ≤ 90 ∧ c.toLower.toNat = c.toNat + 32) := by
  by_cases hupper : c.isUpper = true
  · obtain ⟨hlow, hhigh⟩ := isUpper_iff.1 hupper
    exact .inr ⟨hlow, hhigh, toNat_toLower hlow hhigh⟩
  · left
    unfold Char.toLower
    exact dif_neg fun h => hupper (decide_eq_true h)

theorem toLower_toLower (c : Char) : c.toLower.toLower = c.toLower := by
  rcases toLower_cases c with h | ⟨hlow, -, hfold⟩
  · rw [h, h]
  · -- a small letter is no capital
    rcases toLower_cases c.toLower with h | ⟨-, hhigh, -⟩
    · exact h
    · omega

/-- Nothing but itself is folded to a character that is no letter. -/
theorem toLower_eq_iff {c d : Char} (hd : d.isAlpha = false) : c.toLower = d ↔ c = d := by
  have hletter : ¬ _ := mt isAlpha_iff.2 (by rw [hd]; exact Bool.false_ne_true)
  rcases toLower_cases c with h | ⟨hlow, hhigh, hfold⟩
  · rw [h]
  · constructor
    · rintro rfl
      omega
    · rintro rfl
      omega

theorem isBlank_toLower (c : Char) : isBlank c.toLower = isBlank c := by
  rcases toLower_cases c with h | ⟨hlow, hhigh, hfold⟩
  · rw [h]
  · -- neither a capital nor a small letter is white space
    have hcapital : isBlank c = false := by
      simp [isBlank, blankRanges]
      omega
    have hsmall : isBlank c.toLower = false := by
      simp [isBlank, blankRanges]
      omega
    rw [hcapital, hsmall]

/-! ## Texts -/

variable {cs : List Char}

theorem fold_fold (cs : List Char) : fold (fold cs) = fold cs := by
  rw [fold, fold, List.map_map]
  exact List.map_congr_left fun c _ => toLower_toLower c

theorem fold_cons (c : Char) (cs : List Char) : fold (c :: cs) = c.toLower :: fold cs := rfl

theorem sameIgnoringCase_fold (cs word : List Char) :
    sameIgnoringCase (fold cs) word = sameIgnoringCase cs word := by
  rw [sameIgnoringCase, fold_fold, sameIgnoringCase]

theorem dropWhile_isBlank_fold (cs : List Char) :
    (fold cs).dropWhile isBlank = fold (cs.dropWhile isBlank) := by
  have hblank : isBlank ∘ Char.toLower = isBlank := funext isBlank_toLower
  rw [fold, List.dropWhile_map, hblank, fold]

theorem trim_fold (cs : List Char) : trim (fold cs) = fold (trim cs) := by
  have hreverse : ∀ ds, (fold ds).reverse = fold ds.reverse := fun ds => List.map_reverse.symm
  rw [trim, dropWhile_isBlank_fold, hreverse, dropWhile_isBlank_fold, hreverse, trim]

section Separator

variable {sep : Char}

theorem fieldsOf_fold (hsep : sep.isAlpha = false) (cs : List Char) :
    fieldsOf sep (fold cs) = (fieldsOf sep cs).map fold := by
  induction cs with
  | nil => rfl
  | cons c cs ih =>
    rw [fold_cons, fieldsOf, fieldsOf, ih]
    by_cases hc : c = sep
    · rw [if_pos ((toLower_eq_iff hsep).2 hc), if_pos hc]
      rfl
    · rw [if_neg (mt (toLower_eq_iff hsep).1 hc), if_neg hc]
      cases fieldsOf sep cs <;> rfl

/-- Fields that are those of a text up to case are the fields of a text that is the same up
to case. -/
theorem exists_fieldsOf_eq (hsep : sep.isAlpha = false) {fields : List (List Char)}
    (h : fields.map fold = (fieldsOf sep cs).map fold) :
    ∃ cs', fieldsOf sep cs' = fields ∧ fold cs' = fold cs := by
  induction cs generalizing fields with
  | nil =>
    obtain ⟨field, rfl, hfield⟩ := List.map_eq_singleton_iff.1 h
    obtain rfl := List.map_eq_nil_iff.1 hfield
    exact ⟨[], rfl, rfl⟩
  | cons c cs ih =>
    by_cases hc : c = sep
    · rw [fieldsOf, if_pos hc, List.map_cons] at h
      obtain ⟨field, rest, rfl, hfield, hrest⟩ := List.map_eq_cons_iff.1 h
      obtain rfl := List.map_eq_nil_iff.1 hfield
      obtain ⟨cs', rfl, hcs'⟩ := ih hrest
      exact ⟨c :: cs', by rw [fieldsOf, if_pos hc], by rw [fold_cons, fold_cons, hcs']⟩
    · obtain ⟨first, others, hcs⟩ := List.exists_cons_of_ne_nil (fieldsOf_ne_nil sep cs)
      rw [fieldsOf, if_neg hc, hcs, List.map_cons] at h
      obtain ⟨field, rest, rfl, hfield, hrest⟩ := List.map_eq_cons_iff.1 h
      obtain ⟨d, field, rfl, hd, hfield⟩ := List.map_eq_cons_iff.1 hfield
      have hothers : (field :: rest).map fold = (fieldsOf sep cs).map fold := by
        rw [hcs, List.map_cons, List.map_cons, hrest]
        exact congrArg (· :: others.map fold) hfield
      obtain ⟨cs', hfields, hcs'⟩ := ih hothers
      -- a character that is the separator up to case is the separator
      have hd' : d ≠ sep := by
        rintro rfl
        exact hc ((toLower_eq_iff hsep).1 (hd.symm.trans ((toLower_eq_iff hsep).2 rfl)))
      refine ⟨d :: cs', ?_, ?_⟩
      · rw [fieldsOf, if_neg hd', hfields]
      · rw [fold_cons, fold_cons, hcs', hd]

theorem before_fold (hsep : sep.isAlpha = false) (cs : List Char) :
    before sep (fold cs) = fold (before sep cs) := by
  have hkeeps : (· != sep) ∘ Char.toLower = (· != sep) := by
    funext c
    simp only [Function.comp_apply, bne, beq_eq_decide, toLower_eq_iff hsep]
  rw [before, fold, List.takeWhile_map, hkeeps, fold, before]

end Separator

theorem isBlankText_fold : IsBlankText (fold cs) ↔ IsBlankText cs := by
  simp [IsBlankText, fold, isBlank_toLower]

/-- Without regard to case, a text without letters is only itself. -/
theorem fold_eq_iff {word : List Char} (hword : ∀ c ∈ word, c.isAlpha = false) :
    fold cs = word ↔ cs = word := by
  induction word generalizing cs with
  | nil => simp [fold]
  | cons d word ih =>
    obtain ⟨hd, hrest⟩ := List.forall_mem_cons.1 hword
    cases cs with
    | nil => simp [fold]
    | cons c cs => rw [fold_cons, List.cons.injEq, List.cons.injEq, toLower_eq_iff hd, ih hrest]

/-! ## What differs in case only -/

/-- Whether the first character is an ASCII capital and the second one its small letter. -/
def IsCapitalOf (c d : Char) : Prop := 65 ≤ c.toNat ∧ c.toNat ≤ 90 ∧ d.toNat = c.toNat + 32

/-- Whether two characters are the same, or one ASCII letter in its two cases. -/
def SameLetter (c d : Char) : Prop := c = d ∨ IsCapitalOf c d ∨ IsCapitalOf d c

/-- Whether two texts are the same, one character after the other, up to the case of ASCII
letters. -/
def SameUpToCase (cs ds : List Char) : Prop := List.Forall₂ SameLetter cs ds

theorem toLower_eq_of_isCapitalOf {c d : Char} (h : IsCapitalOf c d) :
    c.toLower = d ∧ d.toLower = d := by
  obtain ⟨hlow, hhigh, hd⟩ := h
  constructor
  · exact Char.toNat_inj.1 ((toNat_toLower hlow hhigh).trans hd.symm)
  · rcases toLower_cases d with hsame | ⟨-, hhigh', -⟩
    · exact hsame
    · omega

theorem toLower_eq_toLower_iff {c d : Char} : c.toLower = d.toLower ↔ SameLetter c d := by
  constructor
  · intro h
    rcases toLower_cases c with hc | ⟨hc, hc', hfold⟩ <;>
      rcases toLower_cases d with hd | ⟨hd, hd', hfold'⟩
    · exact .inl (by rw [← hc, h, hd])
    · exact .inr (.inr ⟨hd, hd', by rw [← hc, h, hfold']⟩)
    · exact .inr (.inl ⟨hc, hc', by rw [← hd, ← h, hfold]⟩)
    · exact .inl (Char.toNat_inj.1 (by have := congrArg Char.toNat h; omega))
  · rintro (rfl | h | h)
    · rfl
    · rw [(toLower_eq_of_isCapitalOf h).1, (toLower_eq_of_isCapitalOf h).2]
    · rw [(toLower_eq_of_isCapitalOf h).1, (toLower_eq_of_isCapitalOf h).2]

/-- Comparing without case finds exactly the texts that differ in case only. -/
theorem sameIgnoringCase_iff_sameUpToCase {cs ds : List Char} :
    sameIgnoringCase cs ds = true ↔ SameUpToCase cs ds := by
  rw [sameIgnoringCase_iff, SameUpToCase]
  induction cs generalizing ds with
  | nil => cases ds <;> simp [fold]
  | cons c cs ih =>
    cases ds with
    | nil => simp [fold]
    | cons d ds =>
      rw [fold_cons, fold_cons, List.cons.injEq, List.forall₂_cons, toLower_eq_toLower_iff, ih]

theorem essence_fold (cs : List Char) : essence (fold cs) = fold (essence cs) := by
  rw [essence, before_fold (by decide), trim_fold, essence]

end Conneg.Text
