import RoutePlan.Text

/-!
Percent-coding of values. Each place in a URL keeps a class of characters literal and writes the
UTF-8 bytes of every other character as escapes.
-/
namespace RoutePlan.Percent

def isComponentChar (c : Char) : Bool := c.isAlphanum || "-_.!~*'()".toList.contains c

def isQueryChar (c : Char) : Bool := isComponentChar c || "@:$,".toList.contains c

def isPathChar (c : Char) : Bool := isQueryChar c || "&=+/".toList.contains c

def hexDigit (n : Nat) : Char := Char.ofNat (if n < 10 then '0'.toNat + n else 'A'.toNat + (n - 10))

def escapeByte (byte : UInt8) : Text :=
  ['%', hexDigit (byte.toNat / 16), hexDigit (byte.toNat % 16)]

def encodeChar (isKept : Char → Bool) (c : Char) : Text :=
  if isKept c then [c] else (String.utf8EncodeChar c).flatMap escapeByte

def encode (isKept : Char → Bool) (t : Text) : Text := t.flatMap (encodeChar isKept)

def encodeComponent (t : Text) : Text := encode isComponentChar t

def encodeQuery (t : Text) : Text := encode isQueryChar t

/-- Every `%` of an encoded text opens an escape, so only spaces turn into `+`. -/
def encodeQueryPlus (t : Text) : Text := Text.replace "%20".toList "+".toList (encodeQuery t)

def encodePath (t : Text) : Text := encode isPathChar t

end RoutePlan.Percent
