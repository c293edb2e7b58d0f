import EntityLoom.Archive.BitSource
import EntityLoom.Sorting

/-!
# Prefix codes

The codes by which deflated data spells its symbols.  A code is given by the length of each symbol's
word.  Words of one length are handed out in the order of the symbols, shorter ones first, and no
word starts another one, so a code is a binary tree whose leaves are the symbols.
-/

namespace EntityLoom

/-- A prefix code as the tree of its words. -/
inductive PrefixCode where
  /-- No word leads here. -/
  | none
  | symbol (value : Nat)
  | branch (zero one : PrefixCode)
  deriving DecidableEq, Repr

namespace PrefixCode

/-- Adds a symbol with its word; a word that starts another one, or is started by one, is
refused. -/
def insert (value : Nat) : List Bool → PrefixCode → Option PrefixCode
  | [], none => some (symbol value)
  | b :: word, none =>
    (insert value word none).map fun t => if b then branch none t else branch t none
  | b :: word, branch zero one =>
    if b then (insert value word one).map (branch zero ·)
    else (insert value word zero).map (branch · one)
  | _, _ => Option.none

/-- The word of a given length with the given value, highest bit first. -/
def word (length value : Nat) : List Bool :=
  (List.range length).reverse.map value.testBit

/-- Adds symbols in the order of their lengths.  The first of them gets the word of value `next`
and length `length`, made longer as needed. -/
def insertAll (length next : Nat) (t : PrefixCode) : List (Nat × Nat) → Option PrefixCode
  | [] => some t
  | (n, value) :: rest => do
    let next := next * 2 ^ (n - length)
    let t ← insert value (word n next) t
    insertAll n (next + 1) t rest

/-- The code whose symbols have words of the given lengths; symbols of length zero have none. -/
def ofLengths (lengths : List Nat) : Option PrefixCode :=
  let used := lengths.zipIdx.filter (·.1 ≠ 0)
  insertAll 0 0 none (sortBy (fun a b => a.1 ≤ b.1) used)

/-- Takes the word of a symbol. -/
def read : PrefixCode → BitReader Nat
  | none => failure
  | symbol value => return value
  | branch zero one => do
    if ← BitReader.bit then one.read else zero.read

end PrefixCode

end EntityLoom
