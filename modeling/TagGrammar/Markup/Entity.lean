/-
References in text.

A reference runs from an ampersand to the next semicolon.  Five names stand for the
characters that markup uses, and a number sign before a code point, in decimal or
after an x in hexadecimal, stands for its character.  A resolved character is not
looked at again.
-/

namespace TagGrammar
namespace Markup

/-- Why a text has a faulty reference. -/
inductive ReferenceError where
  /-- No semicolon follows; what follows the ampersand. -/
  | unclosed (rest : String)
  /-- What stands between the ampersand and the semicolon means nothing. -/
  | unknown (name : String)
deriving DecidableEq

namespace Reference

/-- The value of a digit. -/
def digitValue? (base : Nat) (c : Char) : Option Nat :=
  let n :=
    if c.isDigit then c.toNat - '0'.toNat
    else if 'a' ≤ c ∧ c ≤ 'f' then c.toNat - 'a'.toNat + 10
    else if 'A' ≤ c ∧ c ≤ 'F' then c.toNat - 'A'.toNat + 10
    else base
  if n < base then some n else none

/-- The number written by some digits after those that make up a given number. -/
def numberFrom? (base : Nat) : Nat → List Char → Option Nat
  | n, [] => some n
  | n, c :: cs => (digitValue? base c).bind fun d => numberFrom? base (n * base + d) cs

/-- The number written by at least one digit. -/
def number? (base : Nat) (cs : List Char) : Option Nat :=
  if cs.isEmpty then none else numberFrom? base 0 cs

/-- A number that a plus sign may come before. -/
def signedNumber? (base : Nat) : List Char → Option Nat
  | '+' :: cs => number? base cs
  | cs => number? base cs

/-- The character of a code point that is one. -/
def charOf? (n : Nat) : Option Char := if n.isValidChar then some (Char.ofNat n) else none

/-- The character that a reference stands for. -/
def char? : List Char → Option Char
  | ['a', 'm', 'p'] => some '&'
  | ['a', 'p', 'o', 's'] => some '\''
  | ['g', 't'] => some '>'
  | ['l', 't'] => some '<'
  | ['q', 'u', 'o', 't'] => some '"'
  | '#' :: 'x' :: digits => (signedNumber? 16 digits).bind charOf?
  | '#' :: digits => (signedNumber? 10 digits).bind charOf?
  | _ => none

/-- The text with its references resolved, from left to right. -/
def resolveChars (cs : List Char) : Except ReferenceError (List Char) :=
  match cs with
  | [] => .ok []
  | c :: rest =>
    if c = '&' then
      match h : rest.dropWhile (· != ';') with
      | [] => .error (.unclosed (String.ofList rest))
      | _ :: after =>
        have : after.length < rest.length + 1 := by
          have hle := (List.dropWhile_sublist (l := rest) (· != ';')).length_le
          rw [h, List.length_cons] at hle
          omega
        let name := rest.takeWhile (· != ';')
        match char? name with
        | none => .error (.unknown (String.ofList name))
        | some d => (resolveChars after).map (d :: ·)
    else (resolveChars rest).map (c :: ·)
termination_by cs.length

end Reference

/-- The text with its references resolved. -/
def resolveReferences (s : String) : Except ReferenceError String :=
  (Reference.resolveChars s.toList).map String.ofList

end Markup
end TagGrammar
