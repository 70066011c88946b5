/-!
# Similar words

How much alike two words are, by the characters they share: the mean of the share of the first word
that is found in the second one, the share of the second one that is found in the first, and the
share of the common characters that stand in the same order. This is the Jaro similarity.

* `Similarity.pairs`: the characters that two words share.
* `Similarity.isSimilar`: whether two words are alike enough to be taken for one another.
-/

namespace LambdaLift.Similarity

/-- How far apart equal characters of two words of the given lengths may stand to be shared. -/
def reach (m n : Nat) : Nat :=
  (if m ≤ n then n else m) / 2 - 1

/-- The place of the first character among `free` that is `c` and within reach of place `i`. -/
def partner? (reach : Nat) (free : List (Char × Nat)) (c : Char) (i : Nat) : Option Nat :=
  (free.find? fun (d, j) => d = c && i ≤ j + reach && j ≤ i + reach).map Prod.snd

/-- Pairs characters of the first word with equal ones among `free`, from left to right, and gives
each with the place of its partner. No two have one partner. -/
def pairs (reach : Nat) : (word free : List (Char × Nat)) → List (Char × Nat)
  | [], _ => []
  | (c, i) :: word, free =>
    match partner? reach free c i with
    | some j => (c, j) :: pairs reach word (free.filter (·.2 ≠ j))
    | none => pairs reach word free

/-- The characters of a word that are partners in `shared`, in the order of the word. -/
def partners (shared word : List (Char × Nat)) : List Char :=
  (word.filter fun (_, j) => shared.any (·.2 = j)).map Prod.fst

/-- The number of shared characters that stand in another order in the second word, each exchange
of two counted once. -/
def exchanges (shared word : List (Char × Nat)) : Nat :=
  ((shared.map Prod.fst).zip (partners shared word)).countP (fun (c, d) => c ≠ d) / 2

/-- Whether the similarity of two words is at least seven tenths. The three shares of the mean are
brought to one denominator. -/
def isSimilar (s t : String) : Bool :=
  let first := s.toList.zipIdx
  let second := t.toList.zipIdx
  let m := first.length
  let n := second.length
  let shared := pairs (reach m n) first second
  let k := shared.length
  0 < k && 21 * (m * n * k) ≤ 10 * (k * k * n + k * k * m + (k - exchanges shared second) * m * n)

end LambdaLift.Similarity
