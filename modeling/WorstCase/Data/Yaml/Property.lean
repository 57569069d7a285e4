import WorstCase.Data.Yaml.ScalarText

/-!
# Anchors, tags and directives

What may be said about a node before it: an **anchor** names it, so that an **alias** can stand
for it again, and a **tag** says what it is. A tag is written in full between angle brackets, or
with a handle that a directive before the document expands.
-/

namespace WorstCase.Yaml

namespace Scan

/-! ### Anchors -/

/-- Reads the name of an anchor or an alias after its sign. -/
def anchorName : Scan String := do
  skip 1
  need 1
  let name ← takeWhile isNameChar
  let follows := match ← rest with
    | [] => true
    | c :: _ => isGap c || "?:,]\x7d%@\x60".toList.contains c
  if name.isEmpty || !follows then failure
  return textOf name

/-! ### Tags -/

/-- Whether a character may stand in a tag. -/
def isTagChar (c : Char) : Bool :=
  isNameChar c || ";/?:@&=+$,.!~*'()[]%".toList.contains c

/-- Reads the octets of one character that are written in hexadecimal after percent signs; `left`
is the number of those to come, if that is known. The octets are held last first. -/
def escapedOctets : (fuel : Nat) → (left : Option Nat) → (out : List Char) → Scan (List Char)
  | 0, _, _ => failure
  | fuel + 1, left, out => do
    if left = some 0 then return out
    need 3
    match ← rest with
    | '%' :: a :: b :: _ =>
      match hexValue? a, hexValue? b with
      | some x, some y =>
        let octet := Char.ofNat (16 * x + y)
        let size := announcedSize octet
        let follows := octet.toNat / 0x40 = 2
        match left with
        | none => if size = 0 then failure
        | some _ => if !follows then failure
        skip 3
        escapedOctets fuel (some (left.getD size - 1)) (octet :: out)
      | _, _ => failure
    | _ => failure

/-- Reads the characters of a tag, as octets. `out` holds what was read, last first. -/
def tagOctets : (fuel : Nat) → (out : List Char) → Scan (List Char)
  | 0, out => return out
  | fuel + 1, out => do
    need 1
    match ← rest with
    | [] => return out
    | c :: _ =>
      if c == '%' then
        let octets ← escapedOctets 5 none []
        tagOctets fuel (octets ++ out)
      else if isTagChar c then
        skip 1
        tagOctets fuel (c :: out)
      else return out

/-- Reads the suffix of a tag that begins with `head`. There must be something. -/
def tagSuffix (head : List Char) (mayBeEmpty : Bool) : Scan (List Char) := do
  let octets ← tagOctets (← bound) []
  if octets.isEmpty && !mayBeEmpty then failure
  return head ++ octets.reverse

/-- Reads a handle: an exclamation mark, and perhaps a name and another one. -/
def tagHandle : Scan (List Char) := do
  need 1
  match ← rest with
  | '!' :: _ =>
    skip 1
    need 1
    let name ← takeWhile isNameChar
    if (← rest).head? == some '!' then
      skip 1
      return '!' :: name ++ ['!']
    else return '!' :: name
  | _ => failure

/-- Reads a tag. -/
def tag : Scan Token := do
  need 2
  let t ← (match ← rest with
    | _ :: '<' :: _ => do
      skip 2
      let suffix ← tagSuffix [] false
      if (← rest).head? != some '>' then failure
      skip 1
      return Token.tag "" (String.ofList suffix)
    | _ => do
      let handle ← tagHandle
      if 1 < handle.length && handle.getLast? == some '!' then
        let suffix ← tagSuffix [] false
        return Token.tag (String.ofList handle) (String.ofList suffix)
      else
        let suffix ← tagSuffix (handle.drop 1) true
        if suffix.isEmpty then return Token.tag "" "!"
        else return Token.tag "!" (String.ofList suffix))
  need 1
  if !atGap (← rest) then failure
  return t

/-! ### Directives -/

/-- Reads a number of one or two digits. -/
def versionNumber : Scan Nat := do
  let digits ← takeWhile Char.isDigit
  if digits.isEmpty || 2 < digits.length then failure
  return digits.foldl (fun n c => 10 * n + (c.toNat - '0'.toNat)) 0

/-- Reads a directive, to the end of its line. -/
def directive : Scan Token := do
  skip 1
  need 1
  let name ← takeWhile isNameChar
  if name.isEmpty || !atGap (← rest) then failure
  skipWhile isBlank
  let t ← (match String.ofList name with
    | "YAML" => do
      let major ← versionNumber
      if (← rest).head? != some '.' then failure
      skip 1
      let minor ← versionNumber
      return Token.versionDirective major minor
    | "TAG" => do
      let handle ← tagHandle
      if handle != ['!'] && (handle.length < 2 || handle.getLast? != some '!') then failure
      if !(← rest).head?.any isBlank then failure
      skipWhile isBlank
      let expansion ← tagSuffix [] false
      if !atGap (← rest) then failure
      return Token.tagDirective (String.ofList handle) (String.ofList expansion)
    | _ => failure)
  restOfLine
  return t

end Scan

end WorstCase.Yaml
