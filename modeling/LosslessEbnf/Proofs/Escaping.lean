import LosslessEbnf.Text.Escape
import LosslessEbnf.Text.Natural

/-!
# Escaped texts are told apart

An escaped text can be read back, whatever a display knows of characters.

## Main Definitions

* `hexValue` — the number that hexadecimal digits stand for
* `readShown` — reads one character of an escaped text

## Main Statements

* `readShown_escapeChar` — every escaped character is read back, whatever follows it
* `escape_injective` — different texts are escaped differently
* `lineFeed_not_mem_escape` — an escaped text stays on one line

## Design Notes

The escape of a character depends on its place and on the tables of the display, and it is not
always the shortest that would do. But its first characters always tell how far it goes and what it
stands for, so a text is read back character by character without the tables.
-/

namespace LosslessEbnf.Text

/-! ### Delimiters -/

section

variable {α : Type} {delimiter : α} {left left' right right' : List α}

/-- The first delimiter cuts a list in one way only, since there is none in front of it. -/
theorem eq_of_append_cons (h : delimiter ∉ left) (h' : delimiter ∉ left')
    (heq : left ++ delimiter :: right = left' ++ delimiter :: right') :
    left = left' ∧ right = right' := by
  induction left generalizing left' with
  | nil =>
    cases left' with
    | nil => exact ⟨rfl, (List.cons.inj heq).2⟩
    | cons first left' =>
      obtain rfl := (List.cons.inj heq).1
      exact absurd List.mem_cons_self h'
  | cons first left ih =>
    cases left' with
    | nil =>
      obtain rfl := (List.cons.inj heq).1
      exact absurd List.mem_cons_self h
    | cons first' left' =>
      obtain ⟨rfl, htail⟩ := List.cons.inj heq
      obtain ⟨rfl, hright⟩ := ih (fun hmem => h (List.mem_cons_of_mem _ hmem))
        (fun hmem => h' (List.mem_cons_of_mem _ hmem)) htail
      exact ⟨rfl, hright⟩

/-- The last delimiter cuts a list in one way only. -/
theorem eq_of_append_cons_last (h : delimiter ∉ right) (h' : delimiter ∉ right')
    (heq : left ++ delimiter :: right = left' ++ delimiter :: right') :
    left = left' ∧ right = right' := by
  have hreverse : right.reverse ++ delimiter :: left.reverse =
      right'.reverse ++ delimiter :: left'.reverse := by
    simpa using congrArg List.reverse heq
  obtain ⟨hright, hleft⟩ := eq_of_append_cons (fun hmem => h (List.mem_reverse.mp hmem))
    (fun hmem => h' (List.mem_reverse.mp hmem)) hreverse
  exact ⟨List.reverse_inj.mp hleft, List.reverse_inj.mp hright⟩

end

/-! ### Numbers -/

/-- The hexadecimal digits in their order. -/
def hexDigits : List Char :=
  ['0', '1', '2', '3', '4', '5', '6', '7', '8', '9', 'a', 'b', 'c', 'd', 'e', 'f']

/-- The number that hexadecimal digits stand for. -/
def hexValue (digits : List Char) : Nat :=
  digits.foldl (fun value digit => 16 * value + hexDigits.idxOf digit) 0

theorem idxOf_digitChar : ∀ n < 16, hexDigits.idxOf (Nat.digitChar n) = n := by
  decide

theorem digitChar_mem_hexDigits : ∀ n < 16, Nat.digitChar n ∈ hexDigits := by
  decide

theorem hexValue_toDigits (n : Nat) : hexValue (Nat.toDigits 16 n) = n := by
  induction n using Nat.strongRecOn with
  | ind n ih =>
    by_cases hlt : n < 16
    · rw [Nat.toDigits_of_lt_base hlt]
      show 16 * 0 + hexDigits.idxOf (Nat.digitChar n) = n
      rw [idxOf_digitChar n hlt]
      omega
    · rw [Nat.toDigits_of_base_le (by decide) (by omega), hexValue, List.foldl_append]
      show 16 * hexValue (Nat.toDigits 16 (n / 16)) + hexDigits.idxOf (Nat.digitChar (n % 16)) = n
      rw [ih (n / 16) (by omega), idxOf_digitChar (n % 16) (by omega)]
      omega

theorem mem_hexDigits_of_mem_toDigits {n : Nat} {c : Char} (h : c ∈ Nat.toDigits 16 n) :
    c ∈ hexDigits := by
  induction n using Nat.strongRecOn with
  | ind n ih =>
    by_cases hlt : n < 16
    · rw [Nat.toDigits_of_lt_base hlt, List.mem_singleton] at h
      rw [h]
      exact digitChar_mem_hexDigits n hlt
    · rw [Nat.toDigits_of_base_le (by decide) (by omega), List.mem_append,
        List.mem_singleton] at h
      rcases h with h | rfl
      · exact ih (n / 16) (by omega) h
      · exact digitChar_mem_hexDigits (n % 16) (by omega)

/-- The decimal digits of a number tell which number it is, because they can be read back. -/
theorem repr_injective {m n : Nat} (h : m.repr = n.repr) : m = n := by
  have hread := natural?_repr m
  rw [h, natural?_repr] at hread
  exact (Option.some.inj hread).symm

theorem isDigit_of_mem_repr {n : Nat} {c : Char} (h : c ∈ n.repr.toList) : c.isDigit = true := by
  rw [Nat.toList_repr] at h
  exact Nat.isDigit_of_mem_toDigits (by decide) (by decide) h

/-! ### Reading back -/

/-- Reads what stands behind a backslash. -/
def readEscaped : List Char → Option (Char × List Char)
  | [] => none
  | mark :: rest =>
    if mark = '0' then some ('\x00', rest)
    else if mark = 't' then some ('\t', rest)
    else if mark = 'r' then some ('\r', rest)
    else if mark = 'n' then some ('\n', rest)
    else if mark = 'u' then
      let digits := rest.tail.takeWhile (· != '\x7d')
      some (Char.ofNat (hexValue digits), rest.drop (digits.length + 2))
    else some (mark, rest)

/-- Reads one character of an escaped text. -/
def readShown : List Char → Option (Char × List Char)
  | [] => none
  | c :: rest => if c = '\x5c' then readEscaped rest else some (c, rest)

theorem brace_not_mem_toDigits (n : Nat) : '\x7d' ∉ Nat.toDigits 16 n := fun h =>
  absurd (mem_hexDigits_of_mem_toDigits h) (by decide)

/-- The number of a character ends at its closing brace, which is no digit. -/
theorem readShown_numbered (c : Char) (rest : List Char) :
    readShown (numbered c ++ rest) = some (c, rest) := by
  have hshown : numbered c ++ rest =
      '\x5c' :: 'u' :: '\x7b' :: (Nat.toDigits 16 c.toNat ++ '\x7d' :: rest) := by
    simp [numbered]
  have htake : (Nat.toDigits 16 c.toNat ++ '\x7d' :: rest).takeWhile (· != '\x7d') =
      Nat.toDigits 16 c.toNat := by
    rw [List.takeWhile_append_of_pos]
    · exact List.append_nil _
    · intro digit hdigit
      rw [bne_iff_ne]
      rintro rfl
      exact brace_not_mem_toDigits _ hdigit
  rw [hshown]
  show some (Char.ofNat (hexValue ((Nat.toDigits 16 c.toNat ++ '\x7d' :: rest).takeWhile
    (· != '\x7d'))), _) = _
  rw [htake, hexValue_toDigits, Char.ofNat_toNat]
  show some (c, (Nat.toDigits 16 c.toNat ++ '\x7d' :: rest).drop
    ((List.takeWhile (· != '\x7d') (Nat.toDigits 16 c.toNat ++ '\x7d' :: rest)).length + 1)) = _
  rw [htake, List.drop_append]
  simp

/-- An escaped character is read back, whatever follows it: a backslash tells how far it goes. -/
theorem readShown_escapeChar (glyphs : Glyphs) (marks : Bool) (c : Char) (rest : List Char) :
    readShown (escapeChar listingQuotes marks c glyphs ++ rest) = some (c, rest) := by
  unfold escapeChar
  split
  · rename_i h
    rw [h]
    rfl
  split
  · rename_i h
    rw [h]
    rfl
  split
  · rename_i h
    rw [h]
    rfl
  split
  · rename_i h
    rw [h]
    rfl
  split
  · rename_i h
    simp only [listingQuotes, List.mem_cons, List.not_mem_nil, or_false] at h
    rcases h with rfl | rfl | rfl
    all_goals rfl
  rename_i hmark
  split
  · exact readShown_numbered c rest
  · have hslash : c ≠ '\x5c' := fun h => hmark (Or.inl h)
    rw [List.singleton_append, readShown, if_neg hslash]

/-- Characters are told apart by how they are escaped, and so is what follows them. -/
theorem escapeChar_append_inj {glyphs : Glyphs} {marks : Bool} {c c' : Char}
    {rest rest' : List Char}
    (h : escapeChar listingQuotes marks c glyphs ++ rest =
      escapeChar listingQuotes marks c' glyphs ++ rest') : c = c' ∧ rest = rest' := by
  have hread := congrArg readShown h
  rw [readShown_escapeChar, readShown_escapeChar] at hread
  exact Prod.mk.inj (Option.some.inj hread)

theorem escapeChar_ne_nil (glyphs : Glyphs) (marks : Bool) (c : Char) :
    escapeChar listingQuotes marks c glyphs ≠ [] := by
  intro h
  have hread := readShown_escapeChar glyphs marks c []
  rw [h] at hread
  cases hread

/-- Different texts are different when they are escaped: what a character is escaped to is never the
front of what another one is. -/
theorem flatMap_escapeChar_injective {glyphs : Glyphs} {marks : Bool} {text text' : List Char}
    (h : text.flatMap (fun c => escapeChar listingQuotes marks c glyphs) =
      text'.flatMap fun c => escapeChar listingQuotes marks c glyphs) : text = text' := by
  induction text generalizing text' with
  | nil =>
    cases text' with
    | nil => rfl
    | cons c' text' => exact absurd (List.append_eq_nil_iff.mp h.symm).1 (escapeChar_ne_nil _ _ _)
  | cons c text ih =>
    cases text' with
    | nil => exact absurd (List.append_eq_nil_iff.mp h).1 (escapeChar_ne_nil _ _ _)
    | cons c' text' =>
      obtain ⟨rfl, hrest⟩ := escapeChar_append_inj h
      rw [ih hrest]

/-- **Escapes are unambiguous.** Different texts are escaped differently, whatever the display knows
of characters. -/
theorem escape_injective {glyphs : Glyphs} {text text' : List Char}
    (h : escape text glyphs = escape text' glyphs) : text = text' := by
  cases text with
  | nil =>
    cases text' with
    | nil => rfl
    | cons c' text' => exact absurd (List.append_eq_nil_iff.mp h.symm).1 (escapeChar_ne_nil _ _ _)
  | cons c text =>
    cases text' with
    | nil => exact absurd (List.append_eq_nil_iff.mp h).1 (escapeChar_ne_nil _ _ _)
    | cons c' text' =>
      obtain ⟨rfl, hrest⟩ := escapeChar_append_inj h
      rw [flatMap_escapeChar_injective hrest]

/-! ### One line -/

theorem lineFeed_not_mem_numbered (c : Char) : '\n' ∉ numbered c := by
  have hdigits : '\n' ∉ Nat.toDigits 16 c.toNat := fun h =>
    absurd (mem_hexDigits_of_mem_toDigits h) (by decide)
  simp [numbered, hdigits]

theorem lineFeed_not_mem_escapeChar (glyphs : Glyphs) (marks : Bool) (c : Char) :
    '\n' ∉ escapeChar listingQuotes marks c glyphs := by
  unfold escapeChar
  split
  · decide
  split
  · decide
  split
  · decide
  split
  · decide
  rename_i hfeed
  split
  · simp [Ne.symm hfeed]
  split
  · exact lineFeed_not_mem_numbered c
  · simp [Ne.symm hfeed]

/-- An escaped text stays on one line, since a line feed is written with a backslash and a
letter. -/
theorem lineFeed_not_mem_escape (text : List Char) (glyphs : Glyphs) :
    '\n' ∉ escape text glyphs := by
  cases text with
  | nil => exact List.not_mem_nil
  | cons c text =>
    intro hmem
    rcases List.mem_append.mp hmem with hmem | hmem
    · exact lineFeed_not_mem_escapeChar glyphs true c hmem
    · obtain ⟨other, -, hmem⟩ := List.mem_flatMap.mp hmem
      exact lineFeed_not_mem_escapeChar glyphs false other hmem

end LosslessEbnf.Text
