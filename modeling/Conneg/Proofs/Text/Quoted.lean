import Conneg.Text.Quoted

/-!
# Quoted text is unquoted

A text in quotes can be read back, and what follows its closing quote does not matter
(`readQuoted?_append`): inside the quotes every quote stands behind a backslash, and every
backslash begins an escape. So no two texts have the same written form
(`quoted_injective`).

The reader works through the characters one by one, and its place says how far it has come
in an escape. What carries the proof is that the written form of one character leads from the
place between two characters back to it, with that character read (`readFrom_escape`). The
escape of a hidden character has as many digits as its number needs, so its case is an
induction on the number (`readFrom_hexDigits`).
-/

namespace Conneg.Text

/-! ## Reading -/

/-- How far a reading has come in an escape. -/
inductive Place
  /-- Between two characters. -/
  | plain
  /-- Behind a backslash. -/
  | escape
  /-- In front of the brace of an escape by number. -/
  | brace
  /-- In the digits of an escape by number, with the number so far. -/
  | digits (n : Nat)

/-- The character that a letter behind a backslash stands for. -/
def shortEscape? (c : Char) : Option Char :=
  if c = '"' then some '"'
  else if c = '\\' then some '\\'
  else if c = '0' then some '\x00'
  else if c = 't' then some '\t'
  else if c = 'n' then some '\n'
  else if c = 'r' then some '\r'
  else none

/-- The value of a small hexadecimal digit. -/
def hexDigit? (c : Char) : Option Nat :=
  if '0' ≤ c ∧ c ≤ '9' then some (c.toNat - 48)
  else if 'a' ≤ c ∧ c ≤ 'f' then some (c.toNat - 87)
  else none

/-- The characters up to the closing quote, and what follows it. -/
def readFrom : Place → List Char → Option (List Char × List Char)
  | _, [] => none
  | .plain, c :: cs =>
    if c = '"' then some ([], cs)
    else if c = '\\' then readFrom .escape cs
    else (readFrom .plain cs).map fun (read, rest) => (c :: read, rest)
  | .escape, c :: cs =>
    if c = 'u' then readFrom .brace cs
    else
      match shortEscape? c with
      | none => none
      | some d => (readFrom .plain cs).map fun (read, rest) => (d :: read, rest)
  | .brace, c :: cs => if c = '\x7b' then readFrom (.digits 0) cs else none
  | .digits n, c :: cs =>
    if c = '\x7d' then
      (readFrom .plain cs).map fun (read, rest) => (Char.ofNat n :: read, rest)
    else
      match hexDigit? c with
      | none => none
      | some d => readFrom (.digits (n * 16 + d)) cs

/-- The text in quotes at the front of a text, and what follows it. -/
def readQuoted? : List Char → Option (String × List Char)
  | [] => none
  | c :: cs =>
    if c = '"' then (readFrom .plain cs).map fun (read, rest) => (String.ofList read, rest)
    else none

/-- The text that a text in quotes stands for. -/
def unquote? (s : String) : Option String :=
  match readQuoted? s.toList with
  | some (read, []) => some read
  | _ => none

/-! ## One character -/

/-- A digit of an escape by number adds to the number. -/
theorem readFrom_digitChar {d : Nat} (hd : d < 16) (n : Nat) (rest : List Char) :
    readFrom (.digits n) (Nat.digitChar d :: rest) = readFrom (.digits (n * 16 + d)) rest := by
  have hdigit : ∀ d < 16, Nat.digitChar d ≠ '\x7d' ∧ hexDigit? (Nat.digitChar d) = some d := by
    decide
  obtain ⟨hne, hvalue⟩ := hdigit d hd
  rw [readFrom, if_neg hne, hvalue]

/-- The digits of a number are read as the number. -/
theorem readFrom_hexDigits (n : Nat) (rest : List Char) :
    readFrom (.digits 0) (hexDigits n ++ rest) = readFrom (.digits n) rest := by
  induction n using Nat.strongRecOn generalizing rest with
  | ind n ih =>
    rw [hexDigits, Nat.toDigits_eq_if (by decide)]
    split
    · next hlow =>
      rw [List.singleton_append, readFrom_digitChar hlow, Nat.zero_mul, Nat.zero_add]
    · next hhigh =>
      have htenth := ih (n / 16) (by omega) (Nat.digitChar (n % 16) :: rest)
      rw [List.append_assoc, List.singleton_append]
      rw [hexDigits] at htenth
      rw [htenth, readFrom_digitChar (by omega)]
      congr 2
      omega

/-- The written form of a character is read as it. -/
theorem readFrom_escape (c : Char) (rest : List Char) :
    readFrom .plain (escape c ++ rest)
      = (readFrom .plain rest).map fun (read, rest) => (c :: read, rest) := by
  unfold escape
  -- the quote, the backslash and the four controls with an escape of their own
  iterate 6
    split
    · next h => subst h; rfl
  split
  · have hopen : readFrom .plain ('\\' :: 'u' :: '\x7b' :: (hexDigits c.toNat ++ '\x7d' :: rest))
        = readFrom (.digits 0) (hexDigits c.toNat ++ '\x7d' :: rest) := rfl
    rw [List.append_assoc, List.append_assoc]
    refine hopen.trans ?_
    rw [readFrom_hexDigits, readFrom, if_pos rfl, Char.ofNat_toNat]
  · next hquote hslash _ _ _ _ _ =>
    rw [List.singleton_append, readFrom, if_neg hquote, if_neg hslash]

/-! ## Texts -/

theorem readFrom_flatMap (cs rest : List Char) :
    readFrom .plain (cs.flatMap escape ++ '"' :: rest) = some (cs, rest) := by
  induction cs with
  | nil => rfl
  | cons c cs ih => rw [List.flatMap_cons, List.append_assoc, readFrom_escape, ih, Option.map_some]

/-- A text in quotes is read back in front of any rest. -/
theorem readQuoted?_append (s : String) (rest : List Char) :
    readQuoted? ((quoted s).toList ++ rest) = some (s, rest) := by
  have hquoted : (quoted s).toList ++ rest = '"' :: (s.toList.flatMap escape ++ '"' :: rest) := by
    simp [quoted]
  rw [hquoted, readQuoted?, if_pos rfl, readFrom_flatMap]
  simp only [Option.map_some, String.ofList_toList]

theorem unquote?_quoted (s : String) : unquote? (quoted s) = some s := by
  have h := readQuoted?_append s []
  rw [List.append_nil] at h
  rw [unquote?, h]

/-- No two texts are written alike. -/
theorem quoted_injective {s t : String} (h : quoted s = quoted t) : s = t := by
  have hread := unquote?_quoted s
  rw [h, unquote?_quoted] at hread
  exact (Option.some.inj hread).symm

end Conneg.Text
