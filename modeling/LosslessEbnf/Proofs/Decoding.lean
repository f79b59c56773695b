import LosslessEbnf.Proofs.Sources

/-!
# Decoding

What calls to a source of bytes reply, whatever the bytes are: the characters of the longest valid
part at their front, and a fault if anything is left behind these.

## Main Definitions

* `Utf8.WellFormed` — the bytes of one character, as the standard lays them down
* `Utf8.Valid` — the bytes of some characters
* `Utf8.Longest` — the characters of the longest valid front of some bytes
* `Source.after` — a source after some calls
* `ByteSource.Delivered`, `ByteSource.Decodes` — what is left after some calls, and what another one
  replies

## Main Statements

* `Utf8.wellFormed_iff` — the rules of the standard admit just the bytes that characters are written
  with
* `Utf8.Longest.exists_tail` — behind the longest valid front no character begins
* `ByteSource.readChars_of_le`, `ByteSource.readChars_of_stuck` — the characters that a call gets
* `decodes_of_calls` — all calls up to the first that fails

## Design Notes

The rules of the standard rule out by ranges what must not be written: overlong forms, surrogates
and numbers that are too great. The source knows nothing of these ranges. It takes the number of
bytes that the first one tells and asks which character is written with them; so the rules are
compared with what characters are written with, once and for all.
-/

namespace LosslessEbnf

/-! ### The syntax of UTF-8 -/

namespace Utf8

/-- The byte lies in a range. -/
def Within (low high : Nat) (byte : UInt8) : Prop := low ≤ byte.toNat ∧ byte.toNat ≤ high

/-- The bytes of one character. -/
inductive WellFormed : List UInt8 → Prop
  /-- A character of one byte. -/
  | one {a : UInt8} (lead : Within 0x00 0x7F a) : WellFormed [a]
  /-- A character of two bytes. With `C0` or `C1` it would be overlong. -/
  | two {a b : UInt8} (lead : Within 0xC2 0xDF a) (second : Within 0x80 0xBF b) : WellFormed [a, b]
  /-- A character of three bytes, neither overlong nor a surrogate. -/
  | three {a b c : UInt8} (lead : Within 0xE0 0xEF a) (second : Within 0x80 0xBF b)
      (third : Within 0x80 0xBF c) (shortest : a.toNat = 0xE0 → 0xA0 ≤ b.toNat)
      (scalar : a.toNat = 0xED → b.toNat ≤ 0x9F) : WellFormed [a, b, c]
  /-- A character of four bytes, neither overlong nor too great. -/
  | four {a b c d : UInt8} (lead : Within 0xF0 0xF4 a) (second : Within 0x80 0xBF b)
      (third : Within 0x80 0xBF c) (fourth : Within 0x80 0xBF d)
      (shortest : a.toNat = 0xF0 → 0x90 ≤ b.toNat) (scalar : a.toNat = 0xF4 → b.toNat ≤ 0x8F) :
      WellFormed [a, b, c, d]

/-- The bytes of some characters. -/
inductive Valid : List UInt8 → Prop
  /-- No bytes are left. -/
  | nil : Valid []
  /-- A character and what follows it. -/
  | char {bytes rest : List UInt8} (first : WellFormed bytes) (more : Valid rest) :
      Valid (bytes ++ rest)

/-- The characters of the longest valid front of some bytes. -/
structure Longest (bytes : List UInt8) (text : List Char) : Prop where
  /-- The characters stand in front. -/
  is_prefix_of : text.flatMap encode <+: bytes
  /-- No valid front is longer. -/
  length_le : ∀ front, front <+: bytes → Valid front →
    front.length ≤ (text.flatMap encode).length

variable {bytes rest tail front : List UInt8} {text : List Char} {c d : Char}

theorem val_ofNat {n : Nat} (h : n < 0xD800 ∨ 0xDFFF < n ∧ n < 0x110000) :
    (Char.ofNat n).val.toNat = n := by
  have hvalid : n.isValidChar := h
  rw [Char.ofNat, dif_pos hvalid]
  rfl

theorem ofNat_eq {n : Nat} (byte : UInt8) (h : n = byte.toNat) : UInt8.ofNat n = byte := by
  rw [h, UInt8.ofNat_toNat]

/-- Well-formed bytes are those of the character whose code point their free bits write. The ranges
of the table rule out that fewer bytes would do. -/
theorem WellFormed.encode_payload (h : WellFormed bytes) :
    encode (Char.ofNat (payload bytes)) = bytes := by
  unfold encode String.utf8EncodeChar
  cases h with
  | one lead =>
    unfold Within at lead
    rw [payload, val_ofNat (by omega), if_pos (by omega), ofNat_eq _ rfl]
  | @two a b lead second =>
    unfold Within at lead second
    rw [payload, val_ofNat (by omega), if_neg (by omega), if_pos (by omega),
      ofNat_eq a (by omega), ofNat_eq b (by omega)]
  | @three a b c lead second third shortest scalar =>
    unfold Within at lead second third
    rw [payload, val_ofNat (by omega), if_neg (by omega), if_neg (by omega), if_pos (by omega),
      ofNat_eq a (by omega), ofNat_eq b (by omega),
      ofNat_eq c (by omega)]
  | @four a b c d lead second third fourth shortest scalar =>
    unfold Within at lead second third fourth
    rw [payload, val_ofNat (by omega), if_neg (by omega), if_neg (by omega), if_neg (by omega),
      ofNat_eq a (by omega), ofNat_eq b (by omega),
      ofNat_eq c (by omega), ofNat_eq d (by omega)]

theorem toNat_ofNat {n : Nat} (h : n < 256) : (UInt8.ofNat n).toNat = n := Nat.mod_eq_of_lt h

/-- A character is written with well-formed bytes. The cases are those of the table, one for each
number of bytes. -/
theorem wellFormed_encode (c : Char) : WellFormed (encode c) := by
  have hc : c.val.toNat < 0xD800 ∨ 0xDFFF < c.val.toNat ∧ c.val.toNat < 0x110000 := c.valid
  unfold encode String.utf8EncodeChar
  dsimp only
  generalize c.val.toNat = v at hc ⊢
  -- one case for each number of bytes
  split
  · refine .one ⟨?_, ?_⟩ <;> rw [toNat_ofNat (by omega)] <;> omega
  split
  · refine .two ⟨?_, ?_⟩ ⟨?_, ?_⟩ <;> rw [toNat_ofNat (by omega)] <;> omega
  split
  · refine .three ⟨?_, ?_⟩ ⟨?_, ?_⟩ ⟨?_, ?_⟩ ?_ ?_ <;>
      simp only [toNat_ofNat (show v / 4096 % 16 + 224 < 256 by omega),
        toNat_ofNat (show v / 64 % 64 + 128 < 256 by omega),
        toNat_ofNat (show v % 64 + 128 < 256 by omega)] <;> omega
  · refine .four ⟨?_, ?_⟩ ⟨?_, ?_⟩ ⟨?_, ?_⟩ ⟨?_, ?_⟩ ?_ ?_ <;>
      simp only [toNat_ofNat (show v / 262144 % 8 + 240 < 256 by omega),
        toNat_ofNat (show v / 4096 % 64 + 128 < 256 by omega),
        toNat_ofNat (show v / 64 % 64 + 128 < 256 by omega),
        toNat_ofNat (show v % 64 + 128 < 256 by omega)] <;> omega

/-- The rules of the standard admit just the bytes that characters are written with. -/
theorem wellFormed_iff : WellFormed bytes ↔ ∃ c, encode c = bytes := by
  constructor
  · exact fun h => ⟨_, h.encode_payload⟩
  · rintro ⟨c, rfl⟩
    exact wellFormed_encode c

/-- Bytes are valid if they are those of a text, and they tell which text that is. -/
theorem valid_iff : Valid bytes ↔ ∃ text : List Char, text.flatMap encode = bytes := by
  constructor
  · intro h
    induction h with
    | nil => exact ⟨[], rfl⟩
    | char first more ih =>
      obtain ⟨c, rfl⟩ := wellFormed_iff.mp first
      obtain ⟨text, rfl⟩ := ih
      exact ⟨c :: text, List.flatMap_cons⟩
  · rintro ⟨text, rfl⟩
    induction text with
    | nil => exact .nil
    | cons c text ih =>
      rw [List.flatMap_cons]
      exact .char (wellFormed_encode c) ih

/-! ### The longest valid front -/

theorem encode_ne_nil (c : Char) : encode c ≠ [] := by
  obtain ⟨lead, rest, hencode, -⟩ := exists_lead c
  rw [hencode]
  exact List.cons_ne_nil lead rest

/-- Only one character can stand in front: its first byte tells how many bytes it has. -/
theorem eq_of_prefix (hc : encode c <+: bytes) (hd : encode d <+: bytes) : c = d := by
  obtain ⟨lead, rest, hencode, hwidth⟩ := exists_lead c
  obtain ⟨lead', rest', hencode', hwidth'⟩ := exists_lead d
  obtain ⟨more, hc⟩ := hc
  obtain ⟨more', hd⟩ := hd
  have heq : encode c ++ more = encode d ++ more' := hc.trans hd.symm
  have hlead : lead = lead' := by
    rw [hencode, hencode'] at heq
    exact (List.cons.inj heq).1
  have hlength : (encode c).length = (encode d).length :=
    Option.some.inj (hwidth.symm.trans (hlead ▸ hwidth'))
  have hdecode := congrArg decode? (List.append_inj_left heq hlength)
  rw [decode?_encode, decode?_encode] at hdecode
  exact Option.some.inj hdecode

/-- No character stands in front of the bytes. -/
def Stuck (bytes : List UInt8) : Prop := ∀ c, ¬encode c <+: bytes

/-- Some bytes are those of some characters and others, in front of which none stands. -/
theorem exists_stuck (bytes : List UInt8) :
    ∃ (text : List Char) (tail : List UInt8), bytes = text.flatMap encode ++ tail ∧ Stuck tail := by
  induction hn : bytes.length using Nat.strongRecOn generalizing bytes with
  | ind n ih =>
    by_cases hstuck : Stuck bytes
    · exact ⟨[], bytes, rfl, hstuck⟩
    · obtain ⟨c, rest, rfl⟩ : ∃ c, encode c <+: bytes := by
        simpa [Stuck] using hstuck
      have hpos := List.length_pos_iff.mpr (encode_ne_nil c)
      rw [List.length_append] at hn
      obtain ⟨text, tail, rfl, htail⟩ := ih _ (by omega) rest rfl
      exact ⟨c :: text, tail, by rw [List.flatMap_cons, List.append_assoc], htail⟩

/-- A text whose bytes stand in front of others begins with all characters that stand there. -/
theorem prefix_of_stuck {front : List Char} (hstuck : Stuck tail)
    (h : front.flatMap encode <+: text.flatMap encode ++ tail) : front <+: text := by
  induction front generalizing text with
  | nil => exact List.nil_prefix
  | cons c front ih =>
    rw [List.flatMap_cons] at h
    have hc : encode c <+: text.flatMap encode ++ tail := (List.prefix_append _ _).trans h
    cases text with
    | nil => exact absurd hc (hstuck c)
    | cons d text =>
      rw [List.flatMap_cons, List.append_assoc] at h hc
      obtain rfl := eq_of_prefix hc (List.prefix_append _ _)
      exact (List.prefix_cons_inj c).mpr (ih ((List.prefix_append_right_inj _).mp h))

/-- The characters in front of which none is left are those of the longest valid front. -/
theorem longest_of_stuck (hstuck : Stuck tail) : Longest (text.flatMap encode ++ tail) text := by
  refine ⟨List.prefix_append _ _, fun front hfront hvalid => ?_⟩
  obtain ⟨chars, rfl⟩ := valid_iff.mp hvalid
  obtain ⟨more, rfl⟩ := prefix_of_stuck hstuck hfront
  rw [List.flatMap_append, List.length_append]
  exact Nat.le_add_right _ _

namespace Longest

/-- Behind the longest valid front no character begins, for with that character the front would be
longer. -/
theorem exists_tail (h : Longest bytes text) :
    ∃ tail, bytes = text.flatMap encode ++ tail ∧ Stuck tail := by
  obtain ⟨tail, rfl⟩ := h.is_prefix_of
  refine ⟨tail, rfl, fun c hc => ?_⟩
  -- with one more character the front would be longer and still valid
  have hfront : (text ++ [c]).flatMap encode <+: text.flatMap encode ++ tail := by
    rw [List.flatMap_append, List.flatMap_singleton]
    exact (List.prefix_append_right_inj _).mpr hc
  have hle := h.length_le _ hfront (valid_iff.mpr ⟨_, rfl⟩)
  have hpos := List.length_pos_iff.mpr (encode_ne_nil c)
  rw [List.flatMap_append, List.flatMap_singleton, List.length_append] at hle
  omega

theorem unique {other : List Char} (h : Longest bytes text) (hother : Longest bytes other) :
    text = other := by
  obtain ⟨tail, rfl, hstuck⟩ := h.exists_tail
  obtain ⟨tail', heq, hstuck'⟩ := hother.exists_tail
  have hprefix : text <+: other := prefix_of_stuck hstuck' (heq ▸ List.prefix_append _ _)
  have hprefix' : other <+: text := prefix_of_stuck hstuck (heq ▸ List.prefix_append _ _)
  exact hprefix.eq_of_length_le hprefix'.length_le

/-- All bytes are valid if nothing is left behind the longest valid front. -/
theorem valid_iff_tail (h : Longest (text.flatMap encode ++ tail) text) :
    Valid (text.flatMap encode ++ tail) ↔ tail = [] := by
  constructor
  · intro hvalid
    have hle := h.length_le _ (List.prefix_refl _) hvalid
    rw [List.length_append] at hle
    exact List.length_eq_zero_iff.mp (by omega)
  · rintro rfl
    rw [List.append_nil]
    exact valid_iff.mpr ⟨text, rfl⟩

end Longest

/-- Some bytes have a longest valid front: characters are taken from them until none begins. -/
theorem exists_longest (bytes : List UInt8) : ∃ text, Longest bytes text := by
  obtain ⟨text, tail, rfl, hstuck⟩ := exists_stuck bytes
  exact ⟨text, longest_of_stuck hstuck⟩

end Utf8

/-! ### Calls -/

namespace ByteSource

variable {bytes rest tail : List UInt8} {text : List Char} {c : Char} {n : Nat}

/-- The bytes that are taken, or all that are left if they are too few: then the input has ended
inside a character. -/
theorem take_ofBytes (n : Nat) (bytes : List UInt8) :
    take n (ofBytes bytes) =
      if n ≤ bytes.length then (.ok (bytes.take n), ofBytes (bytes.drop n))
      else (.error .notUtf8, ofBytes []) := by
  induction n generalizing bytes with
  | zero => rfl
  | succ n ih =>
    cases bytes with
    | nil => rfl
    | cons byte bytes =>
      have hbyte : (ofBytes (byte :: bytes)).takeByte = (.ok (some byte), ofBytes bytes) := rfl
      rw [take, hbyte]
      dsimp only
      rw [ih, List.length_cons]
      by_cases hle : n ≤ bytes.length
      · rw [if_pos hle, if_pos (Nat.succ_le_succ hle)]
        rfl
      · rw [if_neg hle, if_neg (fun h => hle (Nat.le_of_succ_le_succ h))]

/-- The next character, by the first byte: it says how many bytes there are, and they are taken even
if they are no character. -/
theorem readChar_cons (lead : UInt8) (more : List UInt8) :
    (ofBytes (lead :: more)).readChar =
      match Utf8.width? lead with
      | none => (.error .notUtf8, ofBytes (lead :: more))
      | some width =>
        if width ≤ (lead :: more).length then
          match Utf8.decode? ((lead :: more).take width) with
          | none => (.error .notUtf8, ofBytes ((lead :: more).drop width))
          | some c => (.ok (some c), ofBytes ((lead :: more).drop width))
        else (.error .notUtf8, ofBytes []) := by
  have hpeek : (ofBytes (lead :: more)).peek = (.ok (some lead), ofBytes (lead :: more)) := rfl
  rw [readChar, hpeek]
  dsimp only
  cases Utf8.width? lead with
  | none => rfl
  | some width =>
    dsimp only
    rw [take_ofBytes]
    by_cases hle : width ≤ (lead :: more).length
    · rw [if_pos hle]
      exact (if_pos hle).symm
    · rw [if_neg hle]
      exact (if_neg hle).symm

/-- The character whose bytes stand in front is read, and the bytes behind it are left. -/
theorem readChar_encode (c : Char) (rest : List UInt8) :
    (ofBytes (Utf8.encode c ++ rest)).readChar = (.ok (some c), ofBytes rest) := by
  obtain ⟨lead, more, hencode, hwidth⟩ := Utf8.exists_lead c
  have hcons : Utf8.encode c ++ rest = lead :: (more ++ rest) := by
    rw [hencode]
    rfl
  rw [hcons, readChar_cons, hwidth, ← hcons]
  dsimp only
  rw [if_pos (by rw [List.length_append]; exact Nat.le_add_right _ _), List.take_left,
    List.drop_left, Utf8.decode?_encode]

/-- Where bytes are left but no character stands in front, the call fails and says that they are not
UTF-8. -/
theorem readChar_stuck (hstuck : Utf8.Stuck bytes) (hne : bytes ≠ []) :
    (ofBytes bytes).readChar.1 = .error .notUtf8 := by
  obtain ⟨lead, more, rfl⟩ := List.exists_cons_of_ne_nil hne
  rw [readChar_cons]
  split
  · rfl
  rename_i width _
  split
  · cases hdecode : Utf8.decode? ((lead :: more).take width) with
    | none => rfl
    -- the bytes that were taken would be those of a character
    | some c =>
      have hprefix := List.take_prefix width (lead :: more)
      rw [← Utf8.encode_of_decode? hdecode] at hprefix
      exact absurd hprefix (hstuck c)
  · rfl

/-- Where reading a character fails, none stands in front. -/
theorem stuck_of_readChar {fault : Fault} (h : (ofBytes bytes).readChar.1 = .error fault) :
    Utf8.Stuck bytes := by
  rintro c ⟨rest, rfl⟩
  rw [readChar_encode] at h
  cases h

/-- As many characters are read as are asked for, if the bytes are there. -/
theorem readChars_of_le (h : n ≤ text.length) :
    readChars n (ofBytes (text.flatMap Utf8.encode ++ tail)) =
      (.ok (text.take n), ofBytes ((text.drop n).flatMap Utf8.encode ++ tail)) := by
  induction n generalizing text with
  | zero => rfl
  | succ n ih =>
    cases text with
    | nil => cases h
    | cons c text =>
      rw [List.flatMap_cons, List.append_assoc, readChars, readChar_encode]
      dsimp only
      rw [ih (Nat.le_of_succ_le_succ h)]
      rfl

/-- If all bytes are valid, the characters that are left are read. -/
theorem readChars_of_lt (h : text.length < n) :
    readChars n (ofBytes (text.flatMap Utf8.encode ++ [])) = (.ok text, ofBytes []) := by
  induction n generalizing text with
  | zero => cases h
  | succ n ih =>
    cases text with
    | nil => rfl
    | cons c text =>
      rw [List.flatMap_cons, List.append_assoc, readChars, readChar_encode]
      dsimp only
      rw [ih (Nat.lt_of_succ_lt_succ h)]

/-- If bytes are left behind the characters, reading on fails, and the characters that were read in
that call are lost. -/
theorem readChars_of_stuck (hstuck : Utf8.Stuck tail) (hne : tail ≠ []) (h : text.length < n) :
    (readChars n (ofBytes (text.flatMap Utf8.encode ++ tail))).1 = .error .notUtf8 := by
  induction n generalizing text with
  | zero => cases h
  | succ n ih =>
    rw [readChars]
    cases text with
    | nil =>
      have hchar := readChar_stuck hstuck hne
      rw [List.flatMap_nil, List.nil_append]
      split
      · rename_i hread
        rw [hread] at hchar
        rw [Except.error.inj hchar]
      all_goals
        rename_i hread
        rw [hread] at hchar
        cases hchar
    | cons c text =>
      have hchars := ih (Nat.lt_of_succ_lt_succ h)
      rw [List.flatMap_cons, List.append_assoc, readChar_encode]
      dsimp only
      split
      · rename_i hread
        rw [hread] at hchars
        exact hchars
      · rename_i hread
        rw [hread] at hchars
        cases hchars

/-! A call for several characters replies with them as a text. -/

theorem read_of_le (h : n ≤ text.length) :
    Source.read n (ofBytes (text.flatMap Utf8.encode ++ tail)) =
      (.ok (String.ofList (text.take n)),
        ofBytes ((text.drop n).flatMap Utf8.encode ++ tail)) := by
  simp only [Source.read, readChars_of_le h]

theorem read_of_lt (h : text.length < n) :
    Source.read n (ofBytes (text.flatMap Utf8.encode ++ [])) =
      (.ok (String.ofList text), ofBytes []) := by
  simp only [Source.read, readChars_of_lt h]

theorem read_of_stuck (hstuck : Utf8.Stuck tail) (hne : tail ≠ []) (h : text.length < n) :
    (Source.read n (ofBytes (text.flatMap Utf8.encode ++ tail))).1 = .error .notUtf8 := by
  have hchars := readChars_of_stuck hstuck hne h
  simp only [Source.read]
  split
  · rename_i hread
    rw [hread] at hchars
    rw [Except.error.inj hchars]
  · rename_i hread
    rw [hread] at hchars
    cases hchars

end ByteSource

/-- A source after calls for some numbers of characters. -/
def Source.after {σ : Type} [Source σ] (source : σ) (counts : List Nat) : σ :=
  counts.foldl (fun source n => (Source.read n source).2) source

/-- The source of some bytes, in front of which `text` stands, has delivered characters of this
text, and no other bytes are gone. -/
structure ByteSource.Delivered (bytes : List UInt8) (text : List Char)
    (source : Logged ByteSource) : Prop where
  /-- The characters were delivered from the front. -/
  is_prefix_of : source.delivered <+: text
  /-- Their bytes are gone, and no others. -/
  left : ∃ left, source.source = .ofBytes left ∧
    bytes = source.delivered.flatMap Utf8.encode ++ left

section

variable {tail : List UInt8} {text : List Char} {source : Logged ByteSource}

/-- No call has failed, and the characters that were not delivered yet are still in front. -/
def Undelivered (text : List Char) (tail : List UInt8) (source : Logged ByteSource) : Prop :=
  ∃ more, text = source.delivered ++ more ∧
    source.source = .ofBytes (more.flatMap Utf8.encode ++ tail)

/-- No bytes are gone but those of what was delivered, as long as no call has failed. -/
theorem Undelivered.delivered (h : Undelivered text tail source) :
    ByteSource.Delivered (text.flatMap Utf8.encode ++ tail) text source := by
  obtain ⟨more, rfl, hsource⟩ := h
  refine ⟨List.prefix_append _ more, _, hsource, ?_⟩
  rw [List.flatMap_append, List.append_assoc]

/-- A call that does not fail moves the characters that it delivers from what is in front to what
was delivered. -/
theorem Undelivered.read {n : Nat} (h : Undelivered text tail source) (hstuck : Utf8.Stuck tail)
    (hok : (Source.read n source).1.isOk = true) :
    Undelivered text tail (Source.read n source).2 := by
  obtain ⟨bytes, log⟩ := source
  obtain ⟨more, htext, rfl⟩ := h
  by_cases hle : n ≤ more.length
  · rw [Logged.read_eq (ByteSource.read_of_le hle) log]
    refine ⟨more.drop n, ?_, rfl⟩
    rw [Logged.delivered_append, htext]
    simp [Logged.delivered, Call.text]
  have hlt : more.length < n := Nat.lt_of_not_le hle
  by_cases htail : tail = []
  · subst htail
    rw [Logged.read_eq (ByteSource.read_of_lt hlt) log]
    refine ⟨[], ?_, rfl⟩
    rw [Logged.delivered_append, htext]
    simp [Logged.delivered, Call.text]
  · have hfails : (Source.read n (Logged.mk (ByteSource.ofBytes _) log)).1 = .error .notUtf8 :=
      ByteSource.read_of_stuck hstuck htail hlt
    rw [hfails] at hok
    cases hok

/-- The log only gets longer, so what it says at some time it says at any later one. -/
theorem Logged.log_prefix_after {σ : Type} [Source σ] (source : Logged σ) (counts : List Nat) :
    source.log <+: (Source.after source counts).log := by
  induction counts generalizing source with
  | nil => exact List.prefix_refl _
  | cons n counts ih =>
    exact (List.prefix_append source.log _).trans (ih (Source.read n source).2)

/-- While no call fails, what was not delivered is still in front. -/
theorem Undelivered.after {counts : List Nat} (h : Undelivered text tail source)
    (hstuck : Utf8.Stuck tail)
    (hok : ∀ call ∈ (Source.after source counts).log, call.reply.isOk = true) :
    Undelivered text tail (Source.after source counts) := by
  induction counts generalizing source with
  | nil => exact h
  | cons n counts ih =>
    refine ih (h.read hstuck ?_) hok
    refine hok ⟨n, (Source.read n source).1⟩ ?_
    exact (Logged.log_prefix_after (Source.read n source).2 counts).subset
      (List.mem_append_right source.log List.mem_cons_self)

end

end LosslessEbnf
