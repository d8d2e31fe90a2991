/-!
# Random choices

A `RandomSource` draws numbers below a bound and numbers of the unit interval from a state.  What is
chosen with it, a member of an array or an order of its members, is defined for any source, so that
statements about searches hold for every sequence of draws.

`SplitMix` is a source whose state is one word.  It draws a number below `n` by multiplying a random
word with `n` and keeping the high half of the product; words whose product has too large a low half
are drawn again, so that all numbers are equally likely.
-/

namespace AdaptiveJoin

/-- A state from which random numbers are drawn. -/
class RandomSource (γ : Type) where
  /-- A number below a bound, from 32-bit words. -/
  below : γ → (n : Nat) → 0 < n → Fin n × γ
  /-- A number below a bound, from 64-bit words. -/
  belowWide : γ → (n : Nat) → 0 < n → Fin n × γ
  /-- A number of the unit interval. -/
  unit : γ → Float × γ

namespace RandomSource

variable {γ α : Type} [RandomSource γ]

/-- Exchanges every member, from the position `i` down, with a member at or before it. -/
def shuffleFrom : Nat → Array α → γ → Array α × γ
  | 0, a, g => (a, g)
  | i + 1, a, g =>
    -- The position `i + 1` exchanges with one of the `i + 2` positions up to itself.
    let (j, g) := below g (i + 2) (by omega)
    shuffleFrom i (a.swapIfInBounds (i + 1) j) g

/-- The members of an array in random order. -/
def shuffle (a : Array α) (g : γ) : Array α × γ := shuffleFrom (a.size - 1) a g

/-- A member of an array, `none` if it has none. -/
def choose (a : Array α) (g : γ) : Option α × γ :=
  if h : 0 < a.size then
    let (i, g) := below g a.size h
    (some a[i], g)
  else (none, g)

end RandomSource

/-- A member removed from an array; the last member takes its place. -/
def swapRemove {α : Type} (a : Array α) (i : Nat) : Array α :=
  (a.swapIfInBounds i (a.size - 1)).pop

/-- A random source whose state is one word. -/
structure SplitMix where
  state : UInt64
deriving DecidableEq, Repr, Inhabited

namespace SplitMix

/-- The next word: the state moves on by an odd constant and is then mixed. -/
def next (g : SplitMix) : UInt64 × SplitMix :=
  let state := g.state + 0x9E3779B97F4A7C15
  let z := (state ^^^ (state >>> 30)) * 0xBF58476D1CE4E5B9
  let z := (z ^^^ (z >>> 27)) * 0x94D049BB133111EB
  (z ^^^ (z >>> 31), ⟨state⟩)

/-- The number of 64-bit words.  It is also the number of words before the state repeats. -/
def nrWords : Nat := 0x10000000000000000

/-- The number of 32-bit words. -/
def nrHalfWords : Nat := 0x100000000

/-- The next word as a number. -/
def nextWide (g : SplitMix) : Fin nrWords × SplitMix :=
  let (word, g) := g.next
  (⟨word.toNat, word.toNat_lt⟩, g)

/-- The upper half of the next word as a number. -/
def nextHalf (g : SplitMix) : Fin nrHalfWords × SplitMix :=
  let (word, g) := g.next
  (⟨word.toNat / nrHalfWords, Nat.div_lt_of_lt_mul word.toNat_lt⟩, g)

/-- The largest low half of a product with `n` that is accepted when words are numbers below `size`,
a power of two: as many low halves are accepted as the largest product of `n` and a power of two
below `size` says. -/
def zone (size n : Nat) : Nat := n <<< (size.log2 - 1 - n.log2) - 1

/-- The number below `n` of the first accepted word among `tries` words. -/
def firstAccepted (size : Nat) (word : SplitMix → Fin size × SplitMix) (n : Nat) (h : 0 < n) :
    Nat → SplitMix → Fin n × SplitMix
  | 0, g => (⟨0, h⟩, g)
  | tries + 1, g =>
    let (w, g) := word g
    if w.val * n % size ≤ zone size n then
      (⟨w.val * n / size, Nat.div_lt_of_lt_mul (Nat.mul_lt_mul_of_pos_right w.isLt h)⟩, g)
    else firstAccepted size word n h tries g

instance : RandomSource SplitMix where
  below g n h := firstAccepted nrHalfWords nextHalf n h nrWords g
  belowWide g n h := firstAccepted nrWords nextWide n h nrWords g
  unit g :=
    let (word, g) := g.next
    -- The upper 53 bits, in units of `2 ^ (-53)`.
    ((word >>> 11).toFloat * 1.1102230246251565e-16, g)

end SplitMix

end AdaptiveJoin
