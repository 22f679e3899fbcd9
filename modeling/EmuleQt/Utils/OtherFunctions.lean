import EmuleQt.Crypto.Digest
import EmuleQt.Utils.QtFormat

namespace EmuleQt.Utils

open Crypto Math QString

/-- A digit of `kBase16Chars`. -/
def base16Char (n : Nat) : UInt16 := UInt16.ofNat (if n<10 then 0x30+n else 0x41+(n-10))

def encodeBase16 (data : List UInt8) : QString :=
  data.flatMap fun byte => [base16Char (byte.toNat / 16), base16Char (byte.toNat % 16)]

def md4str (hash : MD4Hash) : QString := encodeBase16 hash.bytes

def hexCharValue (ch : UInt16) : Option Nat :=
  let c := ch.toNat
  if 0x30 ≤ c ∧ c ≤ 0x39 then some (c - 0x30)
  else if 0x41 ≤ c ∧ c ≤ 0x46 then some (c - 0x41 + 10)
  else if 0x61 ≤ c ∧ c ≤ 0x66 then some (c - 0x61 + 10)
  else none

/-- The bytes of pairs of digits, none where a digit is missing. -/
def base16Bytes : QString → Option (List UInt8)
  | [] => some []
  | [_] => none
  | hi::lo::rest =>
    match hexCharValue hi, hexCharValue lo with
    | some h, some l => (base16Bytes rest).map (UInt8.ofNat (16*h+l) :: ·)
    | _, _ => none

def decodeBase16 (hex : QString) (outputLen : Nat) : Option (List UInt8) :=
  if outputLen < hex.length / 2 then none else base16Bytes hex

def strmd4 (str : QString) : Option MD4Hash :=
  if str.length ≠ 32 then none
  else
    match decodeBase16 str 16 with
    | none => none
    | some raw => if h : raw.length = 16 then some ⟨raw, h⟩ else none

/-- A digit of `kBase32Chars`. -/
def base32Char (n : Nat) : UInt16 := UInt16.ofNat (if n<26 then 0x41+n else 0x32+(n-26))

/-- The digits for the `bits` low bits of the buffer, five at a time from the top. -/
def base32Digits (buffer bits : Nat) : QString :=
  (List.range (bits/5)).map fun i => base32Char (buffer/2^(bits-5*(i+1))%32)

def encodeBase32Loop : List UInt8 → (buffer bits : Nat) → QString
  | [], buffer, bits => if 0<bits then [base32Char (buffer*2^(5-bits)%32)] else []
  | byte::data, buffer, bits =>
    let buffer := (buffer*256+byte.toNat)%2^32
    let bits := bits+8
    base32Digits buffer bits++encodeBase32Loop data buffer (bits%5)

def encodeBase32 (data : List UInt8) : QString := encodeBase32Loop data 0 0

/-- The value of a digit, upper or lower case; `toUpper` leads to ASCII from U+0131 and U+017F. -/
def base32Value (ch : UInt16) : Option Nat :=
  let c := ch.toNat
  if 0x41≤c ∧ c≤0x5A then some (c-0x41)
  else if 0x61≤c ∧ c≤0x7A then some (c-0x61)
  else if c=0x131 then some 8
  else if c=0x17F then some 18
  else if 0x32≤c ∧ c≤0x37 then some (c-0x32+26)
  else none

/-- The bytes written; none where the function returns 0. -/
def decodeBase32Loop : QString → (buffer bits outputLen : Nat) → Option (List UInt8)
  | [], _, _, _ => some []
  | ch::input, buffer, bits, outputLen =>
    match base32Value ch with
    | none => none
    | some val =>
      let buffer := (buffer*32+val)%2^32
      let bits := bits+5
      if 8≤bits then
        if outputLen=0 then none
        else (decodeBase32Loop input buffer (bits-8) (outputLen-1)).map
          (UInt8.ofNat (buffer/2^(bits-8)) :: ·)
      else decodeBase32Loop input buffer bits outputLen

def decodeBase32 (input : QString) (outputLen : Nat) : Option (List UInt8) :=
  decodeBase32Loop input 0 0 outputLen

/-- Letters, digits, hyphen, full stop, low line and tilde stay as they are. -/
def isUnreserved (b : UInt8) : Bool :=
  let c := b.toNat
  decide ((0x41≤c ∧ c≤0x5A) ∨ (0x61≤c ∧ c≤0x7A) ∨ (0x30≤c ∧ c≤0x39) ∨ c=0x2D ∨
    c=0x2E ∨ c=0x5F ∨ c=0x7E)

/-- `QUrl::toPercentEncoding` of UTF-8. -/
def toPercentEncoding (raw : List UInt8) : QString :=
  raw.flatMap fun b =>
    if isUnreserved b then [UInt16.ofNat b.toNat]
    else [percent, base16Char (b.toNat / 16), base16Char (b.toNat % 16)]

def byteHexValue (b : UInt8) : Option Nat := hexCharValue (UInt16.ofNat b.toNat)

/-- `QByteArray::fromPercentEncoding`; what is no escape stays as it is. -/
def fromPercentEncoding : List UInt8 → List UInt8
  | b :: hi :: lo :: rest =>
    if b = 0x25 then
      match byteHexValue hi, byteHexValue lo with
      | some h, some l => UInt8.ofNat (16 * h + l) :: fromPercentEncoding rest
      | _, _ => b :: fromPercentEncoding (hi :: lo :: rest)
    else b :: fromPercentEncoding (hi :: lo :: rest)
  | b :: rest => b :: rest
  | [] => []

def urlEncode (input : QString) : QString := toPercentEncoding (toUtf8 input)

def urlDecode (input : QString) : QString := fromUtf8 (fromPercentEncoding (toUtf8 input))

def isInvalidFilenameChar (u : UInt16) : Bool :=
  u ∈ lit "\"*<>?|\\/:"

def stripInvalidFilenameChars (text : QString) : QString :=
  text.map fun u => if isInvalidFilenameChar u then 0x5F else u

end EmuleQt.Utils
