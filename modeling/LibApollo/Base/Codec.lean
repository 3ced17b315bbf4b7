import Mathlib.Algebra.Group.Nat.Defs
import Mathlib.Data.List.Basic

/-
  Binary formats that are read from the front of a byte
  string.

  A codec writes a value as bytes and reads it back off any
  byte string that starts with them, for the values that fit
  the format.  What it reads always fits.  The formats are
  those of a positional binary encoding: little-endian
  integers of a fixed width, fields one after the other,
  vectors behind their length, and alternatives behind their
  index.

  Key definitions include:
    * `Codec`, `Codec.fromBytes`
    * `Codec.byte`, `Codec.fixed`, `Codec.uint`
    * `Codec.pair`, `Codec.array`, `Codec.vec`
    * `Codec.via`
    * `Variants`, `Variants.enum`

  Key theorems include:
    * `Codec.fromBytes_encode`
    * `Codec.encode_inj`
-/

------------------------------------------------------------
-- Codecs
------------------------------------------------------------

/-
  A format: the values it can carry, and how they are
  written and read.
-/
structure Codec (A : Type) where
  Valid : A → Prop
  encode : A → List UInt8
  decode : List UInt8 → Option (A × List UInt8)
  decode_encode :
    ∀ a rest, Valid a →
      decode (encode a ++ rest) = some (a, rest)
  valid_of_decode :
    ∀ bytes a rest,
      decode bytes = some (a, rest) → Valid a

namespace Codec

variable {A B : Type}

/- Read one value; bytes after it are not looked at. -/
def fromBytes
    (c : Codec A)
    (bytes : List UInt8) : Option A :=
  (c.decode bytes).map Prod.fst

theorem fromBytes_encode
    (c : Codec A)
    {a : A}
    (hValid : c.Valid a) :
    c.fromBytes (c.encode a) = some a := by
  have hRead := c.decode_encode a [] hValid
  rw [List.append_nil] at hRead
  rw [fromBytes, hRead, Option.map_some]

theorem valid_of_fromBytes
    (c : Codec A)
    {bytes : List UInt8}
    {a : A}
    (hRead : c.fromBytes bytes = some a) :
    c.Valid a := by
  rcases Option.map_eq_some_iff.mp hRead with
    ⟨⟨b, rest⟩, hDecode, rfl⟩
  exact c.valid_of_decode _ _ _ hDecode

/- Exactly the valid values come back from their bytes. -/
theorem fromBytes_encode_iff
    (c : Codec A)
    {a : A} :
    c.fromBytes (c.encode a) = some a ↔ c.Valid a :=
  ⟨c.valid_of_fromBytes, c.fromBytes_encode⟩

/- Values that fit are told apart by their bytes. -/
theorem encode_inj
    (c : Codec A)
    {a b : A}
    (hA : c.Valid a)
    (hB : c.Valid b)
    (hEq : c.encode a = c.encode b) :
    a = b := by
  have hRead := c.fromBytes_encode hA
  rw [hEq, c.fromBytes_encode hB] at hRead
  exact (Option.some.inj hRead).symm

end Codec

------------------------------------------------------------
-- Bytes and Integers
------------------------------------------------------------

namespace Codec

variable {A : Type}

/- A value without content. -/
def unit : Codec Unit where
  Valid _ := True
  encode _ := []
  decode bytes := some ((), bytes)
  decode_encode := by
    intro a rest hValid
    rfl
  valid_of_decode := by
    intro bytes a rest hRead
    trivial

def byte : Codec UInt8 where
  Valid _ := True
  encode b := [b]
  decode
    | [] => none
    | b :: bytes => some (b, bytes)
  decode_encode := by
    intro a rest hValid
    rfl
  valid_of_decode := by
    intro bytes a rest hRead
    trivial

/- A value written as `size` bytes of its own. -/
def fixed
    (size : Nat)
    (toBytes : A → List UInt8)
    (ofBytes : List UInt8 → Option A)
    (hLength : ∀ a, (toBytes a).length = size)
    (hRead : ∀ a, ofBytes (toBytes a) = some a) :
    Codec A where
  Valid _ := True
  encode := toBytes
  decode bytes :=
    if size ≤ bytes.length then
      (ofBytes (bytes.take size)).map
        fun a => (a, bytes.drop size)
    else
      none
  decode_encode := by
    intro a rest hValid
    have hTake :
        (toBytes a ++ rest).take size = toBytes a := by
      rw [← hLength a, List.take_left]
    have hDrop :
        (toBytes a ++ rest).drop size = rest := by
      rw [← hLength a, List.drop_left]
    have hSize : size ≤ (toBytes a ++ rest).length := by
      rw [List.length_append, hLength a]
      exact Nat.le_add_right _ _
    rw [if_pos hSize, hTake, hDrop, hRead a,
      Option.map_some]
  valid_of_decode := by
    intro bytes a rest hRead
    trivial

/- The lowest `width` bytes of a number, lowest first. -/
def bytesLE : Nat → Nat → List UInt8
| 0, _ => []
| width + 1, n =>
    UInt8.ofNat n :: bytesLE width (n / 256)

/- Read a number of `width` bytes, lowest first. -/
def readLE :
    Nat → List UInt8 → Option (Nat × List UInt8)
| 0, bytes => some (0, bytes)
| _ + 1, [] => none
| width + 1, b :: bytes =>
    (readLE width bytes).map
      fun read => (b.toNat + 256 * read.1, read.2)

theorem readLE_bytesLE
    (width n : Nat)
    (rest : List UInt8)
    (hBound : n < 256 ^ width) :
    readLE width (bytesLE width n ++ rest) =
      some (n, rest) := by
  induction width generalizing n with
  | zero =>
    have hZero : n = 0 := by simpa using hBound
    rw [hZero]
    rfl
  | succ width ih =>
    have hHigh : n / 256 < 256 ^ width := by
      rw [Nat.div_lt_iff_lt_mul (by omega)]
      simpa [Nat.pow_succ] using hBound
    have hSplit : n % 256 + 256 * (n / 256) = n :=
      Nat.mod_add_div n 256
    simp [bytesLE, readLE, ih _ hHigh, hSplit]

theorem readLE_lt
    (width n : Nat)
    (bytes rest : List UInt8)
    (hRead : readLE width bytes = some (n, rest)) :
    n < 256 ^ width := by
  induction width generalizing n bytes with
  | zero =>
    rcases Option.some.inj hRead with ⟨rfl, rfl⟩
    exact Nat.one_pos
  | succ width ih =>
    cases bytes with
    | nil => simp [readLE] at hRead
    | cons b bytes =>
      rcases Option.map_eq_some_iff.mp hRead with
        ⟨⟨high, rest'⟩, hHigh, hEq⟩
      have hByte := b.toNat_lt
      rcases hEq with ⟨rfl, rfl⟩
      have hBound := ih high bytes hHigh
      rw [Nat.pow_succ]
      omega

/- An unsigned integer of a fixed number of bytes. -/
def uint (width : Nat) : Codec Nat where
  Valid n := n < 256 ^ width
  encode := bytesLE width
  decode := readLE width
  decode_encode := fun n rest hBound =>
    readLE_bytesLE width n rest hBound
  valid_of_decode := fun bytes n rest hRead =>
    readLE_lt width n bytes rest hRead

end Codec

------------------------------------------------------------
-- Fields and Vectors
------------------------------------------------------------

namespace Codec

variable {A B : Type}

/- Two fields, one after the other. -/
def pair
    (left : Codec A)
    (right : Codec B) : Codec (A × B) where
  Valid x := left.Valid x.1 ∧ right.Valid x.2
  encode x := left.encode x.1 ++ right.encode x.2
  decode bytes := do
    let (a, rest) ← left.decode bytes
    let (b, rest) ← right.decode rest
    return ((a, b), rest)
  decode_encode := by
    rintro ⟨a, b⟩ rest ⟨hLeft, hRight⟩
    simp [List.append_assoc,
      left.decode_encode a _ hLeft,
      right.decode_encode b rest hRight]
  valid_of_decode := by
    rintro bytes ⟨a, b⟩ rest hRead
    simp only [Option.bind_eq_bind, Option.pure_def,
      Option.bind_eq_some_iff, Option.some.injEq,
      Prod.mk.injEq, Prod.exists] at hRead
    rcases hRead with
      ⟨a', mid, hLeft, b', rest', hRight, ⟨rfl, rfl⟩, -⟩
    exact ⟨left.valid_of_decode _ _ _ hLeft,
      right.valid_of_decode _ _ _ hRight⟩

/- The elements of a list, one after the other. -/
def writeAll
    (c : Codec A) : List A → List UInt8
| [] => []
| a :: as => c.encode a ++ writeAll c as

/- Read `count` elements. -/
def readAll
    (c : Codec A) :
    Nat → List UInt8 → Option (List A × List UInt8)
| 0, bytes => some ([], bytes)
| count + 1, bytes => do
    let (a, rest) ← c.decode bytes
    let (as, rest) ← readAll c count rest
    return (a :: as, rest)

theorem readAll_writeAll
    (c : Codec A)
    (as : List A)
    (rest : List UInt8)
    (hValid : ∀ a ∈ as, c.Valid a) :
    readAll c as.length (writeAll c as ++ rest) =
      some (as, rest) := by
  induction as with
  | nil => rfl
  | cons a as ih =>
    have hHead := hValid a (List.mem_cons_self ..)
    have hTail := ih (fun b hMem =>
      hValid b (List.mem_cons_of_mem a hMem))
    simp [writeAll, readAll, List.append_assoc,
      c.decode_encode a _ hHead, hTail]

theorem valid_of_readAll
    (c : Codec A)
    (count : Nat)
    (bytes : List UInt8)
    (as : List A)
    (rest : List UInt8)
    (hRead : readAll c count bytes = some (as, rest)) :
    as.length = count ∧ ∀ a ∈ as, c.Valid a := by
  induction count generalizing bytes as with
  | zero =>
    rcases Option.some.inj hRead with ⟨rfl, rfl⟩
    exact ⟨rfl, by simp⟩
  | succ count ih =>
    simp only [readAll, Option.bind_eq_bind,
      Option.pure_def, Option.bind_eq_some_iff,
      Option.some.injEq, Prod.mk.injEq, Prod.exists]
      at hRead
    rcases hRead with
      ⟨a, mid, hHead, tail, rest', hTail, rfl, rfl⟩
    rcases ih mid tail hTail with ⟨hLength, hAll⟩
    refine ⟨by simp [hLength], ?_⟩
    intro b hMem
    rcases List.mem_cons.mp hMem with rfl | hMem
    · exact c.valid_of_decode _ _ _ hHead
    · exact hAll b hMem

/- So many elements, without their number. -/
def array
    (count : Nat)
    (c : Codec A) : Codec (List A) where
  Valid as := as.length = count ∧ ∀ a ∈ as, c.Valid a
  encode := writeAll c
  decode := readAll c count
  decode_encode := by
    rintro as rest ⟨hLength, hAll⟩
    rw [← hLength]
    exact readAll_writeAll c as rest hAll
  valid_of_decode := by
    intro bytes as rest hRead
    exact valid_of_readAll c count bytes as rest hRead

/- A vector: an eight-byte length, then the elements. -/
def vec (c : Codec A) : Codec (List A) where
  Valid as := as.length < 256 ^ 8 ∧ ∀ a ∈ as, c.Valid a
  encode as :=
    (uint 8).encode as.length ++ writeAll c as
  decode bytes := do
    let (count, rest) ← (uint 8).decode bytes
    readAll c count rest
  decode_encode := by
    rintro as rest ⟨hLength, hAll⟩
    have hCount := (uint 8).decode_encode as.length
      (writeAll c as ++ rest) hLength
    simp [List.append_assoc, hCount,
      readAll_writeAll c as rest hAll]
  valid_of_decode := by
    intro bytes as rest hRead
    simp only [Option.bind_eq_bind,
      Option.bind_eq_some_iff, Prod.exists] at hRead
    rcases hRead with ⟨count, mid, hCount, hMany⟩
    rcases valid_of_readAll c _ _ _ _ hMany with
      ⟨hLength, hAll⟩
    have hBound := (uint 8).valid_of_decode _ _ _ hCount
    exact ⟨hLength.symm ▸ hBound, hAll⟩

/-
  A type carried in the format of another.  `Valid` says
  which of its values come back as they were sent.
-/
def via
    (c : Codec A)
    (Valid : B → Prop)
    (send : B → A)
    (receive : A → B)
    (hSend : ∀ b, Valid b → c.Valid (send b))
    (hBack : ∀ b, Valid b → receive (send b) = b)
    (hReceive : ∀ a, c.Valid a → Valid (receive a)) :
    Codec B where
  Valid := Valid
  encode b := c.encode (send b)
  decode bytes :=
    (c.decode bytes).map
      fun read => (receive read.1, read.2)
  decode_encode := by
    intro b rest hValid
    rw [c.decode_encode _ rest (hSend b hValid),
      Option.map_some, hBack b hValid]
  valid_of_decode := by
    intro bytes b rest hRead
    rcases Option.map_eq_some_iff.mp hRead with
      ⟨⟨a, rest'⟩, hDecode, hEq⟩
    rw [← (Prod.mk.inj hEq).1]
    exact hReceive a (c.valid_of_decode _ _ _ hDecode)

end Codec

------------------------------------------------------------
-- Alternatives
------------------------------------------------------------

/-
  The alternatives of a type, numbered from zero, each with
  the format of its content.
-/
structure Variants (A : Type) where
  count : Nat
  Valid : A → Prop
  tag : A → Nat
  encode : A → List UInt8
  decode : Nat → List UInt8 → Option (A × List UInt8)
  tag_lt : ∀ a, tag a < count
  decode_encode :
    ∀ a rest, Valid a →
      decode (tag a) (encode a ++ rest) = some (a, rest)
  valid_of_decode :
    ∀ index bytes a rest,
      decode index bytes = some (a, rest) → Valid a

namespace Variants

variable {A B : Type}

def none : Variants Empty where
  count := 0
  Valid _ := True
  tag a := a.elim
  encode a := a.elim
  decode _ _ := Option.none
  tag_lt := fun a => a.elim
  decode_encode := fun a => a.elim
  valid_of_decode := by
    intro index bytes a
    exact a.elim

/- One more alternative, before the others. -/
def cons
    (c : Codec A)
    (others : Variants B) : Variants (A ⊕ B) where
  count := others.count + 1
  Valid
    | .inl a => c.Valid a
    | .inr b => others.Valid b
  tag
    | .inl _ => 0
    | .inr b => others.tag b + 1
  encode
    | .inl a => c.encode a
    | .inr b => others.encode b
  decode
    | 0, bytes =>
        (c.decode bytes).map
          fun read => (.inl read.1, read.2)
    | index + 1, bytes =>
        (others.decode index bytes).map
          fun read => (.inr read.1, read.2)
  tag_lt := by
    intro x
    cases x with
    | inl a => exact Nat.succ_pos _
    | inr b => exact Nat.succ_lt_succ (others.tag_lt b)
  decode_encode := by
    intro x rest hValid
    cases x with
    | inl a => simp [c.decode_encode a rest hValid]
    | inr b => simp [others.decode_encode b rest hValid]
  valid_of_decode := by
    intro index bytes x rest hRead
    cases index with
    | zero =>
      rcases Option.map_eq_some_iff.mp hRead with
        ⟨⟨a, rest'⟩, hDecode, hEq⟩
      rw [← (Prod.mk.inj hEq).1]
      exact c.valid_of_decode _ _ _ hDecode
    | succ index =>
      rcases Option.map_eq_some_iff.mp hRead with
        ⟨⟨b, rest'⟩, hDecode, hEq⟩
      rw [← (Prod.mk.inj hEq).1]
      exact others.valid_of_decode _ _ _ _ hDecode

/- A four-byte index, then the content. -/
def enum
    (v : Variants A)
    (hCount : v.count ≤ 256 ^ 4) : Codec A where
  Valid := v.Valid
  encode a :=
    (Codec.uint 4).encode (v.tag a) ++ v.encode a
  decode bytes := do
    let (index, rest) ← (Codec.uint 4).decode bytes
    v.decode index rest
  decode_encode := by
    intro a rest hValid
    have hTag := (Codec.uint 4).decode_encode (v.tag a)
      (v.encode a ++ rest)
      (Nat.lt_of_lt_of_le (v.tag_lt a) hCount)
    simp [List.append_assoc, hTag,
      v.decode_encode a rest hValid]
  valid_of_decode := by
    intro bytes a rest hRead
    simp only [Option.bind_eq_bind,
      Option.bind_eq_some_iff, Prod.exists] at hRead
    rcases hRead with ⟨index, mid, hIndex, hBody⟩
    exact v.valid_of_decode _ _ _ _ hBody

end Variants
