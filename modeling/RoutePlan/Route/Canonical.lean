import RoutePlan.Text

/-!
The canonical form of a bound path: no slashes at the end, no slash before an extension, and
escaped dots restored.
-/
namespace RoutePlan

/-- An empty rest stands for the root. -/
def stripTrailingSlashes (path : Text) : Text :=
  let kept := (path.reverse.dropWhile (· == '/')).reverse
  if kept.isEmpty then ['/'] else kept

/-- A word that ends the path or that a `?` follows. -/
def isExtension (text : Text) : Bool :=
  !(text.takeWhile Text.isWordChar).isEmpty &&
    match text.dropWhile Text.isWordChar with
    | [] => true
    | c :: _ => c == '?'

def extensionIndex? : Text → Option Nat
  | [] => none
  | '/' :: '.' :: rest =>
    if isExtension rest then some 0 else (extensionIndex? ('.' :: rest)).map (· + 1)
  | _ :: rest => (extensionIndex? rest).map (· + 1)

def collapseExtension (path : Text) : Text :=
  match extensionIndex? path with
  | some index => path.eraseIdx index
  | none => path

def restoreDots (path : Text) : Text := Text.replace "/\\.".toList "/.".toList path

/-- Slashes at the end go first, then the one before an extension; dots come last. -/
def canonicalize (strip : Bool) (path : Text) : Text :=
  restoreDots (collapseExtension (if strip then stripTrailingSlashes path else path))

end RoutePlan
