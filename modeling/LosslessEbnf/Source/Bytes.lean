import LosslessEbnf.Source.Basic
import LosslessEbnf.Source.Utf8

/-!
# Characters from bytes

A source that decodes UTF-8 as it arrives, one character at a time.

## Main Definitions

* `ByteSource` — bytes at hand and the arrivals behind them
* `ByteSource.peek` — the first byte at hand
* `ByteSource.take` — a number of bytes
* `ByteSource.readChar` — the next character

## Design Notes

Bytes arrive in pieces, and an arrival may be a fault instead. The next arrival is waited for only
when no bytes are at hand. A character is fetched in two calls, which treat an interruption
differently: the look at its first byte passes it on, and the taking of its bytes repeats the call.
The bytes that were taken before a fault are gone. A first byte that begins no character is left
where it is.
-/

namespace LosslessEbnf

/-- What arrives at one call: some bytes or a fault. No bytes say that the input ends there. -/
abbrev Arrival := Except Fault (List UInt8)

/-- A source of bytes. -/
structure ByteSource where
  /-- The bytes at hand. -/
  buffer : List UInt8
  /-- What arrives afterwards. -/
  arrivals : List Arrival

/-- The fault of bytes that are not UTF-8. -/
def Fault.notUtf8 : Fault := ⟨.invalidData, "stream did not contain valid UTF-8"⟩

namespace ByteSource

/-- The source that has all its bytes at hand. -/
def ofBytes (bytes : List UInt8) : ByteSource := ⟨bytes, []⟩

/-- The source of some arrivals. -/
def ofArrivals (arrivals : List Arrival) : ByteSource := ⟨[], arrivals⟩

/-- How many bytes are taken over at one call. -/
def capacity : Nat := 8192

/-- Puts what was not taken over of an arrival in front of the arrivals to come. -/
def putBack (bytes : List UInt8) (arrivals : List Arrival) : List Arrival :=
  match bytes.drop capacity with
  | [] => arrivals
  | left => .ok left :: arrivals

/-- Waits for one arrival if there are no bytes at hand. -/
def fill (s : ByteSource) : Except Fault Unit × ByteSource :=
  match s.buffer, s.arrivals with
  | [], .error fault :: arrivals => (.error fault, ⟨[], arrivals⟩)
  | [], .ok bytes :: arrivals => (.ok (), ⟨bytes.take capacity, putBack bytes arrivals⟩)
  | _, _ => (.ok (), s)

/-- The first byte at hand, left where it is. -/
def peek (s : ByteSource) : Except Fault (Option UInt8) × ByteSource :=
  match s.fill with
  | (.error fault, s) => (.error fault, s)
  | (.ok (), s) => (.ok s.buffer.head?, s)

/-- Waits for arrivals and takes their first byte. An interruption is passed over. -/
def awaitByte : List Arrival → Except Fault (Option UInt8) × ByteSource
  | [] => (.ok none, ⟨[], []⟩)
  | .error fault :: arrivals =>
    if fault.kind = .interrupted then awaitByte arrivals else (.error fault, ⟨[], arrivals⟩)
  | .ok bytes :: arrivals =>
    match bytes.take capacity with
    | [] => (.ok none, ⟨[], arrivals⟩)
    | b :: buffer => (.ok (some b), ⟨buffer, putBack bytes arrivals⟩)

/-- Takes the next byte. -/
def takeByte (s : ByteSource) : Except Fault (Option UInt8) × ByteSource :=
  match s.buffer with
  | b :: buffer => (.ok (some b), ⟨buffer, s.arrivals⟩)
  | [] => awaitByte s.arrivals

/-- Takes the given number of bytes, which belong to one character. If the input ends before them,
they are not UTF-8. -/
def take : Nat → ByteSource → Except Fault (List UInt8) × ByteSource
  | 0, s => (.ok [], s)
  | n + 1, s =>
    match s.takeByte with
    | (.error fault, s) => (.error (if fault.kind = .unexpectedEof then .notUtf8 else fault), s)
    | (.ok none, s) => (.error .notUtf8, s)
    | (.ok (some b), s) =>
      match take n s with
      | (.error fault, s) => (.error fault, s)
      | (.ok bytes, s) => (.ok (b :: bytes), s)

/-- The next character, or none at the end of the input. -/
def readChar (s : ByteSource) : Except Fault (Option Char) × ByteSource :=
  match s.peek with
  | (.error fault, s) => (.error fault, s)
  | (.ok none, s) => (.ok none, s)
  | (.ok (some lead), s) =>
    match Utf8.width? lead with
    | none => (.error .notUtf8, s)
    | some width =>
      match s.take width with
      | (.error fault, s) => (.error fault, s)
      | (.ok bytes, s) =>
        match Utf8.decode? bytes with
        | none => (.error .notUtf8, s)
        | some c => (.ok (some c), s)

/-- The next characters, at most as many as asked for. Characters that were decoded before a fault
are lost with it. -/
def readChars : Nat → ByteSource → Except Fault (List Char) × ByteSource
  | 0, s => (.ok [], s)
  | n + 1, s =>
    match s.readChar with
    | (.error fault, s) => (.error fault, s)
    | (.ok none, s) => (.ok [], s)
    | (.ok (some c), s) =>
      match readChars n s with
      | (.error fault, s) => (.error fault, s)
      | (.ok cs, s) => (.ok (c :: cs), s)

/-! ### The size of a source of bytes -/

/-- How much an arrival adds to the size of a source: its bytes and one for the call. -/
def arrivalSize : Arrival → Nat
  | .ok bytes => bytes.length + 1
  | .error _ => 1

/-- How much some arrivals add to the size of a source. -/
def arrivalsSize : List Arrival → Nat
  | [] => 0
  | arrival :: arrivals => arrivalSize arrival + arrivalsSize arrivals

/-- How much there is still to read. -/
def size (s : ByteSource) : Nat :=
  s.buffer.length + arrivalsSize s.arrivals

theorem size_putBack (bytes : List UInt8) (arrivals : List Arrival) :
    arrivalsSize (putBack bytes arrivals) ≤
      (bytes.length - capacity) + 1 + arrivalsSize arrivals := by
  unfold putBack
  split
  · omega
  · simp [arrivalsSize, arrivalSize]

theorem size_fill (s : ByteSource) : s.fill.2.size ≤ s.size := by
  obtain ⟨buffer, arrivals⟩ := s
  unfold fill
  dsimp only
  split
  · simp [size, arrivalsSize, arrivalSize]
  · rename_i bytes arrivals
    have := size_putBack bytes arrivals
    simp only [size, List.length_take, List.length_nil, arrivalsSize, arrivalSize]
    omega
  · exact Nat.le_refl _

theorem size_peek (s : ByteSource) : s.peek.2.size ≤ s.size := by
  have h := s.size_fill
  unfold peek
  split <;> simp_all

theorem size_awaitByte (arrivals : List Arrival) :
    (awaitByte arrivals).2.size ≤ arrivalsSize arrivals := by
  fun_induction awaitByte arrivals with
  | case1 => simp [size]
  | case2 => simp_all [arrivalsSize, arrivalSize]; omega
  | case3 => simp [size, arrivalsSize, arrivalSize]
  | case4 => simp [size, arrivalsSize]
  | case5 bytes arrivals b buffer h =>
    have hp := size_putBack bytes arrivals
    have hl := congrArg List.length h
    simp only [List.length_take, List.length_cons] at hl
    simp only [size, arrivalsSize, arrivalSize]
    omega

theorem size_awaitByte_lt {arrivals : List Arrival} {b : UInt8} {s : ByteSource}
    (h : awaitByte arrivals = (.ok (some b), s)) : s.size < arrivalsSize arrivals := by
  fun_induction awaitByte arrivals with
  | case1 => simp at h
  | case2 _ _ _ ih =>
    have := ih h
    simp [arrivalsSize, arrivalSize]
    omega
  | case3 => simp at h
  | case4 => simp at h
  | case5 bytes arrivals b buffer hb =>
    have hp := size_putBack bytes arrivals
    have hl := congrArg List.length hb
    simp only [List.length_take, List.length_cons] at hl
    simp only [Prod.mk.injEq] at h
    simp only [← h.2, size, arrivalsSize, arrivalSize]
    omega

theorem size_takeByte (s : ByteSource) : s.takeByte.2.size ≤ s.size := by
  obtain ⟨buffer, arrivals⟩ := s
  cases buffer with
  | nil => simpa [takeByte, size] using size_awaitByte arrivals
  | cons b buffer => simp [takeByte, size]

theorem size_takeByte_lt {s s' : ByteSource} {b : UInt8} (h : s.takeByte = (.ok (some b), s')) :
    s'.size < s.size := by
  obtain ⟨buffer, arrivals⟩ := s
  cases buffer with
  | nil => simpa [size] using size_awaitByte_lt h
  | cons c buffer =>
    simp only [takeByte, Prod.mk.injEq] at h
    simp [← h.2, size]

theorem size_take (n : Nat) (s : ByteSource) : (take n s).2.size ≤ s.size := by
  induction n generalizing s with
  | zero => exact Nat.le_refl _
  | succ n ih =>
    have hb := s.size_takeByte
    simp only [take]
    split
    · simp_all
    · simp_all
    · rename_i b s' h
      rw [h] at hb
      have := ih s'
      split <;> simp_all <;> omega

theorem size_take_lt {n : Nat} {s s' : ByteSource} {bytes : List UInt8} (hn : 0 < n)
    (h : take n s = (.ok bytes, s')) : s'.size < s.size := by
  obtain ⟨n, rfl⟩ : ∃ m, n = m + 1 := ⟨n - 1, by omega⟩
  simp only [take] at h
  split at h
  · simp at h
  · simp at h
  · rename_i b t hb
    have h1 := size_takeByte_lt hb
    have h2 := size_take n t
    split at h
    · simp at h
    · simp_all
      omega

theorem width?_pos {lead : UInt8} {n : Nat} (h : Utf8.width? lead = some n) : 0 < n := by
  unfold Utf8.width? at h
  repeat' split at h
  all_goals simp_all
  all_goals omega

theorem size_readChar_lt {s s' : ByteSource} {c : Char} (h : s.readChar = (.ok (some c), s')) :
    s'.size < s.size := by
  have hp := s.size_peek
  simp only [readChar] at h
  split at h
  · simp at h
  · simp at h
  · rename_i lead t ht
    rw [ht] at hp
    split at h
    · simp at h
    · rename_i width hw
      split at h
      · simp at h
      · rename_i bytes u hu
        have hlt := size_take_lt (width?_pos hw) hu
        split at h
        · simp at h
        · simp_all
          omega

theorem size_readChar (s : ByteSource) : s.readChar.2.size ≤ s.size := by
  have hp := s.size_peek
  simp only [readChar]
  split
  · simp_all
  · simp_all
  · rename_i lead t ht
    rw [ht] at hp
    split
    · simp_all
    · rename_i width hw
      have hk := size_take width t
      split
      · simp_all; omega
      · split <;> simp_all <;> omega

theorem size_readChars (n : Nat) (s : ByteSource) : (readChars n s).2.size ≤ s.size := by
  induction n generalizing s with
  | zero => exact Nat.le_refl _
  | succ n ih =>
    have hc := s.size_readChar
    simp only [readChars]
    split
    · simp_all
    · simp_all
    · rename_i c t ht
      rw [ht] at hc
      have := ih t
      split <;> simp_all <;> omega

theorem size_readChars_lt {n : Nat} {s s' : ByteSource} {cs : List Char}
    (h : readChars n s = (.ok cs, s')) (hc : cs ≠ []) : s'.size < s.size := by
  cases n with
  | zero =>
    simp only [readChars, Prod.mk.injEq, Except.ok.injEq] at h
    exact absurd h.1.symm hc
  | succ n =>
    simp only [readChars] at h
    split at h
    · simp at h
    · simp only [Prod.mk.injEq, Except.ok.injEq] at h
      exact absurd h.1.symm hc
    · rename_i c t ht
      have h1 := size_readChar_lt ht
      have h2 := size_readChars n t
      split at h
      · simp at h
      · simp_all
        omega

instance : Source ByteSource where
  read n s :=
    match readChars n s with
    | (.error fault, s) => (.error fault, s)
    | (.ok cs, s) => (.ok (String.ofList cs), s)
  size := size
  size_lt := by
    intro n s s' text h ht
    split at h
    · simp at h
    · rename_i cs t hcs
      simp only [Prod.mk.injEq, Except.ok.injEq] at h
      obtain ⟨rfl, rfl⟩ := h
      exact size_readChars_lt hcs (by simpa using ht)

end ByteSource

end LosslessEbnf
