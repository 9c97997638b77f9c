import RoutePlan.Text

/-!
Quoted text of JSON strings. Writing escapes the quote, the backslash and control characters;
reading first finds the closing quote and then resolves the escapes before it.
-/
namespace RoutePlan.Json.Quoted

def letterEscapes : List (Char × Char) :=
  [('\x08', 'b'), ('\x0c', 'f'), ('\n', 'n'), ('\r', 'r'), ('\t', 't')]

def isControl (c : Char) : Bool := c.toNat < 0x20

def lowerHexDigit (n : Nat) : Char := (Nat.digitChar n)

def escapeChar (c : Char) : Text :=
  if c = '"' ∨ c = '\\' then ['\\', c]
  else match letterEscapes.lookup c with
    | some letter => ['\\', letter]
    | none =>
      if isControl c then
        "\\u00".toList ++ [lowerHexDigit (c.toNat / 16), lowerHexDigit (c.toNat % 16)]
      else [c]

def escape (t : Text) : Text := t.flatMap escapeChar

def write (t : Text) : Text := '"' :: (escape t ++ ['"'])

def untilQuote? : Text → Option (Text × Text)
  | [] => none
  | '"' :: rest => some ([], rest)
  | '\\' :: c :: rest => (untilQuote? rest).map fun (body, after) => ('\\' :: c :: body, after)
  | c :: rest => (untilQuote? rest).map fun (body, after) => (c :: body, after)

theorem untilQuote?_length {t body after : Text} (found : untilQuote? t = some (body, after)) :
    after.length < t.length := by
  induction t using untilQuote?.induct generalizing body after with
  | case1 => simp [untilQuote?] at found
  | case2 rest =>
    simp only [untilQuote?, Option.some.injEq, Prod.mk.injEq] at found
    simp [← found.2]
  | case3 c rest ih =>
    simp only [untilQuote?, Option.map_eq_some_iff, Prod.mk.injEq, Prod.exists] at found
    obtain ⟨_, _, rest_found, _, rfl⟩ := found
    have := ih rest_found
    simp only [List.length_cons]
    omega
  | case4 c rest notQuote notEscape ih =>
    simp only [untilQuote?, Option.map_eq_some_iff, Prod.mk.injEq, Prod.exists] at found
    obtain ⟨_, _, rest_found, _, rfl⟩ := found
    have := ih rest_found
    simp only [List.length_cons]
    omega

def isHighSurrogate (unit : Nat) : Bool := 0xD800 ≤ unit && unit < 0xDC00

def isLowSurrogate (unit : Nat) : Bool := 0xDC00 ≤ unit && unit < 0xE000

def pairChar (high low : Nat) : Char :=
  Char.ofNat (0x10000 + (high - 0xD800) * 0x400 + (low - 0xDC00))

def escapedChar? (c : Char) : Option Char :=
  if c = '"' ∨ c = '\\' ∨ c = '/' then some c
  else (letterEscapes.find? fun (_, letter) => letter = c).map Prod.fst

/-- Control characters stand in a string only as escapes, and surrogates only in pairs. -/
def unescape? : Text → Option Text
  | [] => some []
  | '\\' :: 'u' :: a :: b :: c :: d :: '\\' :: 'u' :: e :: f :: g :: h :: rest => do
    let unit ← Text.nat? 16 [a, b, c, d]
    if isHighSurrogate unit then
      let low ← Text.nat? 16 [e, f, g, h]
      if isLowSurrogate low then return pairChar unit low :: (← unescape? rest) else none
    else if isLowSurrogate unit then none
    else return Char.ofNat unit :: (← unescape? ('\\' :: 'u' :: e :: f :: g :: h :: rest))
  | '\\' :: 'u' :: a :: b :: c :: d :: rest => do
    let unit ← Text.nat? 16 [a, b, c, d]
    if isHighSurrogate unit || isLowSurrogate unit then none
    else return Char.ofNat unit :: (← unescape? rest)
  | '\\' :: c :: rest => do return (← escapedChar? c) :: (← unescape? rest)
  | c :: rest => if c = '\\' || isControl c then none else do return c :: (← unescape? rest)

end RoutePlan.Json.Quoted
