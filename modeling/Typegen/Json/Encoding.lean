/-!
# Encodings of JSON bytes

A JSON document given as bytes is UTF-8, UTF-16 or UTF-32.  A byte order mark tells which; without
one the zero bytes among the first four do, since a document begins with two ASCII characters.
-/

namespace Typegen.Json

/-- The order of the bytes of a unit. -/
inductive ByteOrder where
  | little
  | big
  deriving DecidableEq, Repr

/-- An encoding of text. -/
inductive Encoding where
  | utf8
  | utf16 (order : ByteOrder)
  | utf32 (order : ByteOrder)
  deriving DecidableEq, Repr

/-- The encoding of a document and its bytes behind the byte order mark. -/
def detect : List UInt8 → Encoding × List UInt8
  | 0x00 :: 0x00 :: 0xfe :: 0xff :: rest => (.utf32 .big, rest)
  | 0xff :: 0xfe :: 0x00 :: 0x00 :: rest => (.utf32 .little, rest)
  | 0xfe :: 0xff :: rest => (.utf16 .big, rest)
  | 0xff :: 0xfe :: rest => (.utf16 .little, rest)
  | 0xef :: 0xbb :: 0xbf :: rest => (.utf8, rest)
  | [a, b] =>
    (if a = 0 then .utf16 .big else if b = 0 then .utf16 .little else .utf8, [a, b])
  | a :: b :: c :: d :: rest =>
    (if a = 0 then (if b = 0 then .utf32 .big else .utf16 .big)
      else if b = 0 then (if c = 0 && d = 0 then .utf32 .little else .utf16 .little)
      else .utf8, a :: b :: c :: d :: rest)
  | bytes => (.utf8, bytes)

/-- The number of two bytes in an order. -/
def ByteOrder.pair (order : ByteOrder) (a b : UInt8) : Nat :=
  match order with
  | .little => a.toNat + 0x100 * b.toNat
  | .big => 0x100 * a.toNat + b.toNat

/-- The number of four bytes in an order. -/
def ByteOrder.quad (order : ByteOrder) (a b c d : UInt8) : Nat :=
  match order with
  | .little => order.pair a b + 0x10000 * order.pair c d
  | .big => 0x10000 * order.pair a b + order.pair c d

/-- The UTF-16 units of some bytes, if their number is even. -/
def units16? (order : ByteOrder) : List UInt8 → Option (List Nat)
  | [] => some []
  | a :: b :: rest => (units16? order rest).map (order.pair a b :: ·)
  | [_] => none

/-- The characters of UTF-16 units, if every surrogate is in a pair. -/
def charsOfUnits? : List Nat → Option (List Char)
  | [] => some []
  | h :: rest =>
    if 0xd800 ≤ h && h < 0xdc00 then
      match rest with
      | l :: rest =>
        if 0xdc00 ≤ l && l < 0xe000 then
          (charsOfUnits? rest).map
            (Char.ofNat (0x10000 + (h - 0xd800) * 0x400 + (l - 0xdc00)) :: ·)
        else none
      | [] => none
    else if 0xdc00 ≤ h && h < 0xe000 then none
    else (charsOfUnits? rest).map (Char.ofNat h :: ·)

/-- The characters of UTF-32, if every unit is a character. -/
def charsOfQuads? (order : ByteOrder) : List UInt8 → Option (List Char)
  | [] => some []
  | a :: b :: c :: d :: rest =>
    let n := order.quad a b c d
    if n.isValidChar then (charsOfQuads? order rest).map (Char.ofNat n :: ·) else none
  | _ => none

/-- The text of some bytes in an encoding. -/
def Encoding.decode? : Encoding → List UInt8 → Option String
  | .utf8, bytes => String.fromUTF8? ⟨bytes.toArray⟩
  | .utf16 order, bytes => (units16? order bytes).bind charsOfUnits? |>.map String.ofList
  | .utf32 order, bytes => (charsOfQuads? order bytes).map String.ofList

/-- The text of a JSON document given as bytes. -/
def decode? (bytes : List UInt8) : Option String :=
  let (encoding, rest) := detect bytes
  encoding.decode? rest

end Typegen.Json
