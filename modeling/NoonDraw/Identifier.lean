import NoonDraw.Table
import NoonDraw.Text.Digits

/-!
# Identifiers

Rooms, places and events carry 128-bit identifiers, each kind with a type of its own so that one
cannot stand for another. Users come from a directory that names them as it likes, so a `UserId` is
any text.

An identifier is written as thirty-two lower-case hexadecimal digits in groups of 8, 4, 4, 4 and 12,
joined by hyphens. It is read in that form, without hyphens, in braces, or behind `urn:uuid:`, in
either case of letters. The order of identifiers is that of their bits, which is also the order of
their written forms.
-/

namespace NoonDraw

open NoonDraw.Text

/-- A 128-bit identifier. -/
structure Identifier where
  /-- The bits, most significant first when written. -/
  bits : BitVec 128
  deriving DecidableEq

namespace Identifier

instance : Key Identifier := Key.onReading bits fun ⟨_⟩ ⟨_⟩ h => congrArg _ h
instance : Inhabited Identifier := ⟨⟨0⟩⟩

/-- The identifier with the value `n`, modulo the number of identifiers. -/
def ofNat (n : Nat) : Identifier := ⟨BitVec.ofNat 128 n⟩

/-- The thirty-two hexadecimal digits of an identifier. -/
def digits (i : Identifier) : List Char := Digits.fixedWidth 16 32 i.bits.toNat

/-- Thirty-two characters in the groups of a written identifier, joined by hyphens. -/
def hyphenate (ds : List Char) : List Char :=
  ds.take 8 ++ '-' :: (ds.drop 8).take 4 ++ '-' :: (ds.drop 12).take 4 ++
    '-' :: (ds.drop 16).take 4 ++ '-' :: ds.drop 20

/-- The written form, such as `00000000-0000-4000-8000-000000000001`. -/
def toText (i : Identifier) : String := String.ofList (hyphenate i.digits)

instance : ToString Identifier := ⟨toText⟩

/-- Takes the hyphens out of thirty-six characters that have them in the right places. -/
def dehyphenate? (cs : List Char) : Option (List Char) :=
  if cs.length = 36 ∧ [8, 13, 18, 23].all (fun i => cs[i]? = some '-') then
    some (cs.take 8 ++ (cs.drop 9).take 4 ++ (cs.drop 14).take 4 ++ (cs.drop 19).take 4 ++ cs.drop 24)
  else none

/-- Reads thirty-two hexadecimal digits. -/
def ofDigits? (ds : List Char) : Option Identifier :=
  if ds.length = 32 then (Digits.value? 16 ds).map ofNat else none

/-- Reads any of the four spellings. -/
def ofChars? (cs : List Char) : Option Identifier :=
  let hyphenated (cs : List Char) := (dehyphenate? cs).bind ofDigits?
  match cs.length with
  | 32 => ofDigits? cs
  | 36 => hyphenated cs
  | 38 => if cs.head? = some '\x7b' ∧ cs.getLast? = some '\x7d' then hyphenated (cs.drop 1).dropLast else none
  | 45 =>
    if (cs.take 9).map Char.toLower = "urn:uuid:".toList then hyphenated (cs.drop 9) else none
  | _ => none

/-- Reads an identifier in any of its spellings. -/
def ofText? (s : String) : Option Identifier := ofChars? s.toList

theorem ofDigits?_digits (i : Identifier) : ofDigits? i.digits = some i := by
  have h : i.bits.toNat < Digits.capacity 16 32 := i.bits.isLt
  simp only [ofDigits?, digits, Digits.length_fixedWidth, if_true]
  rw [Digits.value?_fixedWidth (by decide) (by decide) h]
  simp [ofNat]

theorem length_hyphenate {ds : List Char} (h : ds.length = 32) : (hyphenate ds).length = 36 := by
  simp [hyphenate, h]

theorem dehyphenate?_hyphenate {ds : List Char} (h : ds.length = 32) :
    dehyphenate? (hyphenate ds) = some ds := by
  match ds, h with
  | [a0, a1, a2, a3, a4, a5, a6, a7, b0, b1, b2, b3, c0, c1, c2, c3, d0, d1, d2, d3, e0, e1, e2, e3,
      e4, e5, e6, e7, e8, e9, e10, e11], _ => rfl

/-- The written form of an identifier reads back. -/
theorem ofText?_toText (i : Identifier) : ofText? i.toText = some i := by
  have hlen : i.digits.length = 32 := Digits.length_fixedWidth 16 32 _
  simp only [ofText?, toText, String.toList_ofList, ofChars?, length_hyphenate hlen,
    dehyphenate?_hyphenate hlen, Option.bind_some, ofDigits?_digits]

end Identifier

/-- Identifies a room. -/
structure RoomId where
  /-- The identifier. -/
  id : Identifier
  deriving DecidableEq, Inhabited

/-- Identifies a place. -/
structure PlaceId where
  /-- The identifier. -/
  id : Identifier
  deriving DecidableEq, Inhabited

/-- Identifies an event, and with it the roll or boost that the event records. -/
structure EventId where
  /-- The identifier. -/
  id : Identifier
  deriving DecidableEq, Inhabited

/-- Identifies a user by the name the directory gives. -/
structure UserId where
  /-- The name. -/
  text : String
  deriving DecidableEq, Inhabited

instance : Key RoomId := Key.onReading RoomId.id fun ⟨_⟩ ⟨_⟩ h => congrArg _ h
instance : Key PlaceId := Key.onReading PlaceId.id fun ⟨_⟩ ⟨_⟩ h => congrArg _ h
instance : Key EventId := Key.onReading EventId.id fun ⟨_⟩ ⟨_⟩ h => congrArg _ h

/-- Users are ordered by the code points of their names. -/
instance : Key UserId := Key.onReading UserId.text fun ⟨_⟩ ⟨_⟩ h => congrArg _ h

instance : ToString RoomId := ⟨fun r => r.id.toText⟩
instance : ToString PlaceId := ⟨fun p => p.id.toText⟩
instance : ToString EventId := ⟨fun e => e.id.toText⟩
instance : ToString UserId := ⟨UserId.text⟩

end NoonDraw
