/-!
# Base64

Octets as printable characters: three octets are four characters of six bits each, and equals signs
fill the last group up. The characters here are the octets of a text. Reading passes over line
breaks, and asks for nothing of the bits that are left over.
-/

namespace WorstCase.Base64

/-- The characters of the sixty-four digits, in order. -/
def digits : List Char :=
  "ABCDEFGHIJKLMNOPQRSTUVWXYZabcdefghijklmnopqrstuvwxyz0123456789+/".toList

/-- The character of a digit. -/
def digitChar (n : Nat) : Char := digits.getD n 'A'

/-- The digit of a character. -/
def digit? (c : Char) : Option Nat := digits.idxOf? c

/-- Octets in Base64. -/
def encode : List Char → List Char
  | [] => []
  | [a] =>
    let n := a.toNat * 0x10
    [digitChar (n / 0x40), digitChar (n % 0x40), '=', '=']
  | [a, b] =>
    let n := (a.toNat * 0x100 + b.toNat) * 4
    [digitChar (n / 0x1000), digitChar (n / 0x40 % 0x40), digitChar (n % 0x40), '=']
  | a :: b :: c :: rest =>
    let n := (a.toNat * 0x100 + b.toNat) * 0x100 + c.toNat
    digitChar (n / 0x40000) :: digitChar (n / 0x1000 % 0x40) :: digitChar (n / 0x40 % 0x40) ::
      digitChar (n % 0x40) :: encode rest

/-- The octets of full groups, and of the last one, which may be filled up. -/
def decodeGroups : List Char → Option (List Char)
  | [] => some []
  | [a, b, '=', '='] => do
    let n := (← digit? a) * 0x40 + (← digit? b)
    return [Char.ofNat (n / 0x10)]
  | [a, b, c, '='] => do
    let n := ((← digit? a) * 0x40 + (← digit? b)) * 0x40 + (← digit? c)
    return [Char.ofNat (n / 0x400), Char.ofNat (n / 4 % 0x100)]
  | a :: b :: c :: d :: rest => do
    let n := (((← digit? a) * 0x40 + (← digit? b)) * 0x40 + (← digit? c)) * 0x40 + (← digit? d)
    let more ← decodeGroups rest
    return Char.ofNat (n / 0x10000) :: Char.ofNat (n / 0x100 % 0x100) ::
      Char.ofNat (n % 0x100) :: more
  | _ => none

/-- The octets that a text in Base64 stands for. -/
def decode? (s : List Char) : Option (List Char) :=
  decodeGroups (s.filter fun c => c != '\n' && c != '\r')

end WorstCase.Base64
