import Conneg.Proofs.Wire.Bounded
import Conneg.Proofs.Wire.RoundTrip
import Mathlib.Data.List.Perm.Basic

/-!
# Records are read by name

A record is read from the entries of a map in the order in which they come. What comes of it
does not depend on that order: it is said here of each field by itself, from the trees that
stand under its name (`Fields.Adds`), and of the entries that are no field's, which need only
be passed over (`recordEntries_eq_ok`). So two maps that have the same under each name are read
as the same record (`Fields.adds_congr`).

The induction is over the entries, and one entry is a list of one: it adds to one field or to
none (`put_eq_ok`, `put_eq_none`), and what a list adds is what its first entry adds and then
the others (`adds_cons`). An error, too, is followed along the entries, by what those in front of it
have added (`recordEntries_error`).
-/

namespace Conneg

open Wire

variable {σ α : Type}

/-! ## Entries and their names -/

/-- The trees under a name, in their order. -/
def Wire.under (name : String) (es : List (String × Node σ)) : List (Node σ) :=
  (es.filter fun e => e.1 == name).map Prod.snd

/-- Whether a map ends and has these entries, each with a key that names a field so. -/
def Wire.Entries.NamedAs (R : ReadRules σ) : Entries σ → List (String × Node σ) → Prop
  | .done, [] => True
  | .cons key t rest, e :: es =>
    (∃ x, key = .scalar x ∧ R.fieldLabel x = some (.name e.1)) ∧ t = e.2 ∧ rest.NamedAs R es
  | _, _ => False

section Under

variable {name : String} {e : String × Node σ} {es es' : List (String × Node σ)}

theorem under_nil (name : String) : under name ([] : List (String × Node σ)) = [] := rfl

theorem under_cons_self (h : e.1 = name) : under name (e :: es) = e.2 :: under name es := by
  have hhere : (e.1 == name) = true := beq_iff_eq.2 h
  simp only [under, List.filter_cons, hhere, if_true, List.map_cons]

theorem under_cons_ne (h : e.1 ≠ name) : under name (e :: es) = under name es := by
  have hhere : (e.1 == name) = false := beq_eq_false_iff_ne.2 h
  simp only [under, List.filter_cons, hhere, Bool.false_eq_true, if_false]

theorem under_append (name : String) (es es' : List (String × Node σ)) :
    under name (es ++ es') = under name es ++ under name es' := by
  rw [under, List.filter_append, List.map_append, under, under]

theorem under_perm (name : String) (h : es.Perm es') : (under name es).Perm (under name es') :=
  (h.filter _).map _

theorem under_sublist (name : String) (h : es.Sublist es') :
    (under name es).Sublist (under name es') :=
  (h.filter _).map _

theorem under_eq_nil : under name es = [] ↔ ∀ e ∈ es, e.1 ≠ name := by
  rw [under, List.map_eq_nil_iff, List.filter_eq_nil_iff]
  simp only [beq_iff_eq, ne_eq]

end Under

/-! ## What entries add to a record -/

/-- What the trees under a field's name make of the field: without a tree it stays as it is,
and one tree is read into it, if it is still open. -/
inductive Takes (read : Node σ → Except Fault α) : List (Node σ) → Option α → Option α → Prop
  | nothing (x : Option α) : Takes read [] x x
  | one {t : Node σ} {v : α} (hread : read t = .ok v) : Takes read [t] none (some v)

/-- Whether entries turn the fields read so far into others, each field by itself. -/
def Fields.Adds (R : ReadRules σ) (b : Budget) (es : List (String × Node σ)) :
    (fs : Fields) → fs.Partial → fs.Partial → Prop
  | .nil => fun _ _ => True
  | .cons name s rest => fun p q =>
    Takes (s.read R b) (under name es) p.1 q.1 ∧ rest.Adds R b es p.2 q.2

/-- The fields of a record, with their names. -/
def Fields.toList : Fields → List (String × Schema)
  | .nil => []
  | .cons name s rest => (name, s) :: rest.toList

theorem Fields.map_toList (fs : Fields) : fs.toList.map Prod.fst = fs.names := by
  match fs with
  | .nil => rfl
  | .cons name s rest => exact congrArg (name :: ·) rest.map_toList

theorem Fields.mem_names {fs : Fields} {name : String} :
    name ∈ fs.names ↔ ∃ s, (name, s) ∈ fs.toList := by
  rw [← fs.map_toList, List.mem_map]
  constructor
  · rintro ⟨⟨_, s⟩, hmem, rfl⟩
    exact ⟨s, hmem⟩
  · rintro ⟨s, hmem⟩
    exact ⟨_, hmem, rfl⟩

theorem Takes.append_iff {read : Node σ → Except Fault α} {ts us : List (Node σ)}
    {x z : Option α} : Takes read (ts ++ us) x z ↔ ∃ y, Takes read ts x y ∧ Takes read us y z := by
  constructor
  · intro h
    cases ts with
    | nil => exact ⟨x, .nothing x, h⟩
    | cons t ts =>
      -- a tree in front is the only one
      generalize hall : t :: ts ++ us = all at h
      cases h with
      | nothing => exact nomatch hall
      | one hread =>
        obtain ⟨rfl, hnil⟩ := List.cons.inj hall
        obtain ⟨rfl, rfl⟩ := List.append_eq_nil_iff.1 hnil
        exact ⟨_, .one hread, .nothing _⟩
  · rintro ⟨y, hts, hus⟩
    cases hts with
    | nothing => exact hus
    | one hread =>
      cases hus with
      | nothing => exact .one hread

theorem Takes.of_perm {read : Node σ → Except Fault α} {ts us : List (Node σ)} {x y : Option α}
    (h : Takes read ts x y) (hperm : ts.Perm us) : Takes read us x y := by
  cases h with
  | nothing =>
    rw [List.nil_perm.1 hperm]
    exact .nothing _
  | one hread =>
    rw [List.perm_singleton.1 hperm.symm]
    exact .one hread

theorem Takes.unique {read : Node σ → Except Fault α} {ts : List (Node σ)} {x y z : Option α}
    (hy : Takes read ts x y) (hz : Takes read ts x z) : y = z := by
  cases hy with
  | nothing =>
    cases hz
    rfl
  | one hread =>
    cases hz with
    | one hread' => rw [Except.ok.inj (hread.symm.trans hread')]

variable {R : ReadRules σ} {b : Budget} {fs : Fields} {es es' : List (String × Node σ)}

theorem Fields.adds_append (fs : Fields) {p r : fs.Partial} :
    fs.Adds R b (es ++ es') p r ↔ ∃ q, fs.Adds R b es p q ∧ fs.Adds R b es' q r := by
  match fs with
  | .nil => exact ⟨fun _ => ⟨(), trivial, trivial⟩, fun _ => trivial⟩
  | .cons name s rest =>
    simp only [Fields.Adds, under_append, Takes.append_iff, rest.adds_append]
    constructor
    · rintro ⟨⟨x, hx, hx'⟩, q, hq, hq'⟩
      exact ⟨(x, q), ⟨hx, hq⟩, hx', hq'⟩
    · rintro ⟨q, ⟨hx, hq⟩, hx', hq'⟩
      exact ⟨⟨q.1, hx, hx'⟩, q.2, hq, hq'⟩

theorem Fields.adds_cons (fs : Fields) {e : String × Node σ} {p r : fs.Partial} :
    fs.Adds R b (e :: es) p r ↔ ∃ q, fs.Adds R b [e] p q ∧ fs.Adds R b es q r := by
  rw [← List.singleton_append, fs.adds_append]

/-- Entries that are no field's add nothing. -/
theorem Fields.adds_of_undeclared (fs : Fields) (h : ∀ name ∈ fs.names, under name es = [])
    {p q : fs.Partial} : fs.Adds R b es p q ↔ p = q := by
  match fs with
  | .nil => exact ⟨fun _ => rfl, fun _ => trivial⟩
  | .cons name s rest =>
    obtain ⟨hname, hrest⟩ := List.forall_mem_cons.1 h
    simp only [Fields.Adds, hname, rest.adds_of_undeclared hrest]
    constructor
    · rintro ⟨htakes, hq⟩
      generalize hx : p.1 = x at htakes
      generalize hy : q.1 = y at htakes
      cases htakes
      exact Prod.ext (hx.trans hy.symm) hq
    · rintro rfl
      exact ⟨.nothing _, rfl⟩

/-- What entries add depends on what stands under each name, but not on its order. -/
theorem Fields.adds_congr (fs : Fields)
    (h : ∀ name ∈ fs.names, (under name es).Perm (under name es')) {p q : fs.Partial} :
    fs.Adds R b es p q ↔ fs.Adds R b es' p q := by
  match fs with
  | .nil => exact Iff.rfl
  | .cons name s rest =>
    obtain ⟨hname, hrest⟩ := List.forall_mem_cons.1 h
    exact and_congr ⟨fun h => h.of_perm hname, fun h => h.of_perm hname.symm⟩
      (rest.adds_congr hrest)

/-- What entries add is settled. -/
theorem Fields.adds_unique (fs : Fields) {p q r : fs.Partial} (hq : fs.Adds R b es p q)
    (hr : fs.Adds R b es p r) : q = r := by
  match fs with
  | .nil => rfl
  | .cons name s rest =>
    exact Prod.ext (hq.1.unique hr.1) (rest.adds_unique hq.2 hr.2)

/-! ## One entry -/

/-- The names of a regular record are declared once each. -/
theorem Fields.nodup_names (fs : Fields) (h : fs.isRegular = true) : fs.names.Nodup := by
  match fs with
  | .nil => exact List.nodup_nil
  | .cons name s rest =>
    obtain ⟨hname, -, hrest⟩ := notMem_of_isRegular h
    exact List.nodup_cons.2 ⟨hname, rest.nodup_names hrest⟩

/-- An entry that no field is named by is passed over. -/
theorem Fields.put_of_notMem (fs : Fields) {name : String} (h : name ∉ fs.names) (t : Node σ)
    (p : fs.Partial) : fs.put R b (.name name) t p = .ok none := by
  match fs with
  | .nil => rfl
  | .cons other s rest =>
    obtain ⟨hother, hrest⟩ := not_or.1 (mt List.mem_cons.2 h)
    have hhere : Label.here other (.name name) = false := beq_eq_false_iff_ne.2 hother
    simp only [Fields.put, hhere, Label.next, rest.put_of_notMem hrest]
    rfl

/-- An entry that a field is named by is read into it, if the field is still open. -/
theorem Fields.put_eq_ok (fs : Fields) (hfs : fs.names.Nodup) {name : String}
    (hname : name ∈ fs.names) {t : Node σ} {p : fs.Partial} {r : Option fs.Partial} :
    fs.put R b (.name name) t p = .ok r ↔ ∃ q, r = some q ∧ fs.Adds R b [(name, t)] p q := by
  match fs with
  | .nil => exact nomatch hname
  | .cons other s rest =>
    obtain ⟨x, p⟩ := p
    obtain ⟨hother, hrest⟩ := List.nodup_cons.1 hfs
    by_cases heq : name = other
    · subst heq
      have hhere : Label.here name (.name name) = true := beq_self_eq_true name
      have hothers : ∀ n ∈ rest.names, under n [(name, t)] = [] := by
        intro n hn
        refine under_cons_ne ?_
        rintro rfl
        exact hother hn
      simp only [Fields.put, hhere, if_true, Fields.Adds, under_cons_self, under_nil,
        rest.adds_of_undeclared hothers]
      cases x with
      | some x =>
        constructor
        · intro h
          exact nomatch h
        · rintro ⟨q, -, htakes, -⟩
          exact nomatch htakes
      | none =>
        simp only [Fields.fill]
        constructor
        · intro h
          obtain ⟨v, hv, rfl⟩ := exists_of_map_eq_ok h
          exact ⟨(some v, p), rfl, .one hv, rfl⟩
        · rintro ⟨⟨y, q⟩, rfl, htakes, hq⟩
          obtain rfl : p = q := hq
          generalize hy : (y, p).1 = z at htakes
          cases htakes with
          | one hread =>
            obtain rfl : y = some _ := hy
            rw [hread]
            rfl
    · have hhere : Label.here other (.name name) = false := beq_eq_false_iff_ne.2 heq
      have hmem : name ∈ rest.names := (List.mem_cons.1 hname).resolve_left heq
      have hunder : under other [(name, t)] = [] := under_cons_ne heq
      simp only [Fields.put, hhere, Label.next, Fields.Adds, hunder]
      constructor
      · intro h
        obtain ⟨r', hr', rfl⟩ := exists_of_map_eq_ok h
        obtain ⟨q, rfl, hq⟩ := (rest.put_eq_ok hrest hmem).1 hr'
        exact ⟨(x, q), rfl, .nothing x, hq⟩
      · rintro ⟨⟨y, q⟩, rfl, htakes, hq⟩
        generalize hy : (y, q).1 = z at htakes
        cases htakes
        obtain rfl : y = x := hy
        rw [(rest.put_eq_ok hrest hmem).2 ⟨q, rfl, hq⟩]
        rfl

/-- An entry that cannot be put into its field is at fault itself, if what stands in front of it
has left the field open. -/
theorem Fields.put_error (fs : Fields) {name : String} {t : Node σ} {p : fs.Partial}
    (hp : fs.Adds R b es fs.blank p) (hnew : under name es = []) {e : Fault}
    (h : fs.put R b (.name name) t p = .error e) :
    ∃ s, (name, s) ∈ fs.toList ∧ s.read R b t = .error e := by
  match fs with
  | .nil => cases h
  | .cons other s rest =>
    obtain ⟨x, p⟩ := p
    obtain ⟨htakes, hrest⟩ := hp
    by_cases heq : name = other
    · subst heq
      have hhere : Label.here name (.name name) = true := beq_self_eq_true name
      rw [hnew] at htakes
      generalize hx : (x, p).1 = y at htakes
      generalize hblank : ((Fields.cons name s rest).blank : Option s.Carrier × rest.Partial).1 = z
        at htakes
      cases htakes
      obtain rfl : x = none := hx.trans hblank.symm
      simp only [Fields.put, hhere, if_true, Fields.fill] at h
      cases hread : s.read R b t with
      | ok v =>
        rw [hread] at h
        cases h
      | error e' =>
        rw [hread] at h
        obtain rfl := Except.error.inj h
        exact ⟨s, List.mem_cons_self, hread⟩
    · have hhere : Label.here other (.name name) = false := beq_eq_false_iff_ne.2 heq
      simp only [Fields.put, hhere, Label.next] at h
      cases hput : rest.put R b (.name name) t p with
      | ok r =>
        rw [hput] at h
        cases h
      | error e' =>
        rw [hput] at h
        obtain rfl := Except.error.inj h
        obtain ⟨s', hs', hread⟩ := rest.put_error hrest hnew hput
        exact ⟨s', List.mem_cons_of_mem _ hs', hread⟩

/-! ## All entries -/

/-- What a record is read as from the entries of a map. -/
def Fields.readEntries (R : ReadRules σ) (b : Budget) (fs : Fields) (ts : Entries σ) :
    Except Fault fs.Carrier :=
  (Reader.recordEntries R b (fs.put R b) ts fs.blank).bind fs.finish

/-- **The entries of a record are read by name.** They are read exactly if each field takes what
stands under its name, and the entries that are no field's can be passed over. -/
theorem Fields.recordEntries_eq_ok (fs : Fields) (hfs : fs.names.Nodup) {ts : Entries σ}
    (hts : ts.NamedAs R es) {p r : fs.Partial} :
    Reader.recordEntries R b (fs.put R b) ts p = .ok r ↔
      fs.Adds R b es p r ∧ ∀ e ∈ es, e.1 ∉ fs.names → R.skips b e.2 = true := by
  induction es generalizing ts p with
  | nil =>
    cases ts with
    | done =>
      have hnone : fs.Adds R b [] p r ↔ p = r := fs.adds_of_undeclared fun _ _ => rfl
      simp only [Reader.recordEntries, hnone, Except.ok.injEq, List.not_mem_nil, false_imp_iff,
        implies_true, and_true]
    | broken | cons => exact hts.elim
  | cons e es ih =>
    cases ts with
    | done | broken => exact hts.elim
    | cons key t ts =>
      obtain ⟨⟨x, rfl, hlabel⟩, rfl, hts⟩ := hts
      rw [fs.adds_cons, List.forall_mem_cons]
      by_cases hname : e.1 ∈ fs.names
      · have hput := fun {r} =>
          fs.put_eq_ok hfs hname (R := R) (b := b) (t := e.2) (p := p) (r := r)
        simp only [Reader.recordEntries, hlabel, hname, not_true_eq_false, false_imp_iff, true_and]
        constructor
        · intro h
          split at h
          · next q hq =>
            obtain ⟨q', hsome, hadds⟩ := hput.1 hq
            obtain rfl := Option.some.inj hsome
            obtain ⟨hrest, hskips⟩ := (ih hts).1 h
            exact ⟨⟨q, hadds, hrest⟩, hskips⟩
          · next hq =>
            obtain ⟨q', hsome, -⟩ := hput.1 hq
            cases hsome
          · cases h
        · rintro ⟨⟨q, hadds, hrest⟩, hskips⟩
          rw [hput.2 ⟨q, rfl, hadds⟩]
          exact (ih hts).2 ⟨hrest, hskips⟩
      · have hput := fs.put_of_notMem hname (R := R) (b := b) e.2 p
        have hnone : ∀ q, fs.Adds R b [e] p q ↔ p = q := by
          intro q
          apply fs.adds_of_undeclared
          intro n hn
          refine under_cons_ne ?_
          rintro rfl
          exact hname hn
        simp only [Reader.recordEntries, hlabel, hput, hnone, hname, not_false_eq_true,
          true_imp_iff, exists_eq_left']
        by_cases hskips : R.skips b e.2 = true
        · rw [if_pos hskips, ih hts]
          simp only [hskips, true_and]
        · rw [if_neg hskips]
          simp [hskips]

/-- Entries under different names are at fault only where a field's value or an unknown one
is. -/
theorem Fields.recordEntries_error (fs : Fields) (hfs : fs.names.Nodup)
    {front : List (String × Node σ)} {ts : Entries σ} (hts : ts.NamedAs R es)
    (hdistinct : ∀ name ∈ fs.names, (under name (front ++ es)).length ≤ 1) {p : fs.Partial}
    (hp : fs.Adds R b front fs.blank p) {c : Fault}
    (h : Reader.recordEntries R b (fs.put R b) ts p = .error c) :
    c = .unreadable ∨ ∃ e ∈ es, ∃ s, (e.1, s) ∈ fs.toList ∧ s.read R b e.2 = .error c := by
  induction es generalizing front ts p with
  | nil =>
    cases ts with
    | done => cases h
    | broken | cons => exact hts.elim
  | cons e es ih =>
    cases ts with
    | done | broken => exact hts.elim
    | cons key t ts =>
      obtain ⟨⟨x, rfl, hlabel⟩, rfl, hts⟩ := hts
      rw [List.append_cons] at hdistinct
      have hlater : ∀ {q : fs.Partial}, fs.Adds R b (front ++ [e]) fs.blank q →
          Reader.recordEntries R b (fs.put R b) ts q = .error c →
          c = .unreadable ∨
            ∃ e' ∈ e :: es, ∃ s, (e'.1, s) ∈ fs.toList ∧ s.read R b e'.2 = .error c := by
        intro q hq hrest
        refine (ih hts hdistinct hq hrest).imp_right ?_
        rintro ⟨e', he', hs⟩
        exact ⟨e', List.mem_cons_of_mem _ he', hs⟩
      by_cases hname : e.1 ∈ fs.names
      · have hput := fun {r} =>
          fs.put_eq_ok hfs hname (R := R) (b := b) (t := e.2) (p := p) (r := r)
        simp only [Reader.recordEntries, hlabel] at h
        split at h
        · next q hq =>
          obtain ⟨q', hsome, hadds⟩ := hput.1 hq
          obtain rfl := Option.some.inj hsome
          exact hlater (fs.adds_append.2 ⟨p, hp, hadds⟩) h
        · next hq =>
          obtain ⟨q', hsome, -⟩ := hput.1 hq
          cases hsome
        · next hq =>
          obtain rfl := Except.error.inj h
          -- the entry's name has not been there before
          have hnew : under e.1 front = [] := by
            have hlength := hdistinct e.1 hname
            simp only [under_append, List.append_assoc, under_cons_self, List.length_append,
              List.length_cons] at hlength
            exact List.length_eq_zero_iff.1 (by omega)
          obtain ⟨s, hs, hread⟩ := fs.put_error hp hnew hq
          exact .inr ⟨e, List.mem_cons_self, s, hs, hread⟩
      · have hadds : fs.Adds R b [e] p p := by
          refine (fs.adds_of_undeclared fun n hn => under_cons_ne ?_).2 rfl
          rintro rfl
          exact hname hn
        simp only [Reader.recordEntries, hlabel, fs.put_of_notMem hname] at h
        split at h
        · exact hlater (fs.adds_append.2 ⟨p, hp, hadds⟩) h
        · exact .inl (Except.error.inj h).symm

/-! ## The end of a record -/

/-- A record without one of its fields, where that field may be left out. -/
def Fields.leaveOut (left : String) : (fs : Fields) → fs.Carrier → Option fs.Carrier
  | .nil => fun _ => some ()
  | .cons name s rest => fun v =>
    if name = left then s.absent?.map fun x => (x, v.2)
    else (rest.leaveOut left v.2).map fun y => (v.1, y)

theorem Takes.eq_none {read : Node σ → Except Fault α} {x : Option α}
    (h : Takes read [] none x) : x = none := by
  cases h
  rfl

/-- A field that is given one tree takes what is read of it. -/
theorem Takes.exists_read {read : Node σ → Except Fault α} {ts : List (Node σ)} {x : Option α}
    (h : Takes read ts none x) (hne : ts ≠ []) :
    ∃ t v, ts = [t] ∧ read t = .ok v ∧ x = some v := by
  cases h with
  | nothing => exact absurd rfl hne
  | one hread => exact ⟨_, _, rfl, hread, rfl⟩

/-- Entries add up to something exactly if no field is given twice and what is given can be
read. -/
theorem Fields.exists_adds_iff (fs : Fields) :
    (∃ r, fs.Adds R b es fs.blank r) ↔
      ∀ f ∈ fs.toList, under f.1 es = [] ∨
        ∃ t v, under f.1 es = [t] ∧ f.2.read R b t = .ok v := by
  match fs with
  | .nil => exact ⟨fun _ => nofun, fun _ => ⟨(), trivial⟩⟩
  | .cons name s rest =>
    rw [Fields.toList, List.forall_mem_cons, ← rest.exists_adds_iff]
    constructor
    · rintro ⟨r, htakes, hr⟩
      refine ⟨?_, r.2, hr⟩
      by_cases hnil : under name es = []
      · exact .inl hnil
      · obtain ⟨t, v, hone, hread, -⟩ := Takes.exists_read htakes hnil
        exact .inr ⟨t, v, hone, hread⟩
    · rintro ⟨hfirst, r, hr⟩
      rcases hfirst with hnil | ⟨t, v, hone, hread⟩
      · refine ⟨(none, r), ?_, hr⟩
        rw [hnil]
        exact .nothing none
      · refine ⟨(some v, r), ?_, hr⟩
        rw [hone]
        exact .one hread

/-- A record is whole when every field was given. -/
theorem Fields.finish_of_given (fs : Fields) (hgiven : ∀ name ∈ fs.names, under name es ≠ [])
    {r : fs.Partial} (hr : fs.Adds R b es fs.blank r) : ∃ w, fs.finish r = .ok w := by
  match fs with
  | .nil => exact ⟨(), rfl⟩
  | .cons name s rest =>
    obtain ⟨x, r⟩ := r
    obtain ⟨hname, hrest⟩ := List.forall_mem_cons.1 hgiven
    obtain ⟨w, hw⟩ := rest.finish_of_given hrest hr.2
    obtain ⟨t, v, -, -, rfl⟩ := Takes.exists_read hr.1 hname
    refine ⟨(v, w), ?_⟩
    simp only [Fields.finish, Option.some_or, hw]
    rfl

/-- A record is at fault where a field was not given that may not be left out, if the others
were given. -/
theorem Fields.finish_missing (fs : Fields) {left : String} {s : Schema}
    (hleft : (left, s) ∈ fs.toList) (hrequired : s.absent? = none) (hfs : fs.names.Nodup)
    (hgiven : ∀ name ∈ fs.names, under name es = [] ↔ name = left) {r : fs.Partial}
    (hr : fs.Adds R b es fs.blank r) : fs.finish r = .error (.missingField left) := by
  match fs with
  | .nil => exact nomatch hleft
  | .cons name s' rest =>
    obtain ⟨x, r⟩ := r
    obtain ⟨htakes, hr⟩ := hr
    obtain ⟨hname, hnames⟩ := List.nodup_cons.1 hfs
    obtain ⟨hfirst, hrest⟩ := List.forall_mem_cons.1 hgiven
    by_cases heq : name = left
    · -- the field is this one, for no other has its name
      have hs : s = s' := by
        rcases List.mem_cons.1 hleft with hsame | hmem
        · exact (Prod.mk.inj hsame).2
        · exact absurd (Fields.mem_names.2 ⟨s, hmem⟩) (heq ▸ hname)
      subst hs
      rw [hfirst.2 heq] at htakes
      obtain rfl : x = none := Takes.eq_none htakes
      rw [Fields.finish, hrequired, Option.none_or, heq]
    · obtain ⟨t, v, -, -, rfl⟩ : ∃ t v, under name es = [t] ∧ s'.read R b t = .ok v ∧ x = some v :=
        Takes.exists_read htakes (mt hfirst.1 heq)
      have hmem : (left, s) ∈ rest.toList := by
        refine (List.mem_cons.1 hleft).resolve_left ?_
        intro hsame
        exact heq (Prod.mk.inj hsame).1.symm
      simp only [Fields.finish, Option.some_or, rest.finish_missing hmem hrequired hnames hrest hr]
      rfl

/-- A record to which one field was not given, but the others as they were to a whole one, is the
whole one without that field. -/
theorem Fields.finish_leaveOut (fs : Fields) (hfs : fs.names.Nodup) {left : String}
    (hgiven : ∀ name ∈ fs.names, under name es ≠ [])
    (hsame : ∀ name ∈ fs.names, name ≠ left → (under name es).Perm (under name es'))
    (hleft : left ∈ fs.names → under left es' = []) {r r' : fs.Partial} {w w' : fs.Carrier}
    (hr : fs.Adds R b es fs.blank r) (hw : fs.finish r = .ok w)
    (hr' : fs.Adds R b es' fs.blank r') (hw' : fs.leaveOut left w = some w') :
    fs.finish r' = .ok w' := by
  match fs with
  | .nil => rfl
  | .cons name s rest =>
    obtain ⟨x, r⟩ := r
    obtain ⟨x', r'⟩ := r'
    obtain ⟨hname, hnames⟩ := List.nodup_cons.1 hfs
    obtain ⟨hfirst, hothers⟩ := List.forall_mem_cons.1 hgiven
    obtain ⟨hperm, hperms⟩ := List.forall_mem_cons.1 hsame
    obtain ⟨htakes, hr⟩ := hr
    obtain ⟨htakes', hr'⟩ := hr'
    obtain ⟨t, v, -, -, rfl⟩ : ∃ t v, under name es = [t] ∧ s.read R b t = .ok v ∧ x = some v :=
      Takes.exists_read htakes hfirst
    simp only [Fields.finish, Option.some_or] at hw
    obtain ⟨y, hy, rfl⟩ := exists_of_map_eq_ok hw
    by_cases heq : name = left
    · subst heq
      rw [hleft List.mem_cons_self] at htakes'
      obtain rfl : x' = none := Takes.eq_none htakes'
      simp only [Fields.leaveOut, if_true] at hw'
      obtain ⟨z, hz, rfl⟩ := Option.map_eq_some_iff.1 hw'
      -- the other fields are as they were
      have hrest : rest.finish r' = .ok y := by
        have hadds : rest.Adds R b es' rest.blank r := by
          refine (rest.adds_congr fun n hn => ?_).1 hr
          refine hperms n hn ?_
          rintro rfl
          exact hname hn
        obtain rfl : r = r' := rest.adds_unique hadds hr'
        exact hy
      simp only [Fields.finish, Option.none_or, hz, hrest]
      rfl
    · obtain rfl : some v = x' := (htakes.of_perm (hperm heq)).unique htakes'
      simp only [Fields.leaveOut, if_neg heq] at hw'
      obtain ⟨z, hz, rfl⟩ := Option.map_eq_some_iff.1 hw'
      have hrest : rest.finish r' = .ok z :=
        rest.finish_leaveOut hnames hothers hperms
          (fun hmem => hleft (List.mem_cons_of_mem _ hmem)) hr hy hr' hz
      simp only [Fields.finish, Option.some_or, hrest]
      rfl

end Conneg
