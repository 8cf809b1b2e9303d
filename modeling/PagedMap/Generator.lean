/-!
# A generator of random numbers

The state is one word, to which every draw adds an odd constant, so the states run through all
words before one returns.  The number drawn is a mix of the new state: the two halves of its
128-bit product with a masked copy of itself, added bit by bit.

`Generator.below n` draws a number below `n`.  A word `r` stands for the integer part of
`r * n / 2 ^ 64`, and the words that would make some results likelier than others are drawn again.
Main statement: the result is below `n` (`below_lt`).
-/

namespace PagedMap

/-- A source of random words. -/
structure Generator where
  /-- The sum of the seed and of the steps taken. -/
  state : UInt64
  deriving DecidableEq

namespace Generator

/-- The next word. -/
def word (g : Generator) : Nat × Generator :=
  let state := g.state + 0x2d358dccaa6c78a5
  let product := state.toNat * (state ^^^ 0x8bb84b93962eacc9).toNat
  ((product % UInt64.size) ^^^ (product / UInt64.size % UInt64.size), ⟨state⟩)

/-- Draws words, `fuel` of them at most after the first, until the low half of the product with
`n` reaches `bound`, and gives the high half. -/
def drawAbove (n bound : Nat) : (fuel : Nat) → Generator → Nat × Generator
  | 0, g => (g.word.1 * n / UInt64.size, g.word.2)
  | fuel + 1, g =>
    if g.word.1 * n % UInt64.size < bound then drawAbove n bound fuel g.word.2
    else (g.word.1 * n / UInt64.size, g.word.2)

/-- A number below `n`.  After `2 ^ 64` draws the words repeat, so no more are tried. -/
def below (n : Nat) (g : Generator) : Nat × Generator :=
  drawAbove n ((UInt64.size - n) % n) UInt64.size g

theorem word_lt (g : Generator) : g.word.1 < UInt64.size := by
  have hmod (n : Nat) : n % UInt64.size < 2 ^ 64 := Nat.mod_lt n (by decide)
  exact Nat.xor_lt_two_pow (hmod _) (hmod _)

theorem drawAbove_lt {n : Nat} (hn : 0 < n) (bound fuel : Nat) (g : Generator) :
    (drawAbove n bound fuel g).1 < n := by
  have hlt (g : Generator) : g.word.1 * n / UInt64.size < n :=
    Nat.div_lt_of_lt_mul (Nat.mul_lt_mul_of_pos_right g.word_lt hn)
  induction fuel generalizing g with
  | zero => exact hlt g
  | succ fuel ih =>
    unfold drawAbove
    split
    · exact ih _
    · exact hlt g

theorem below_lt {n : Nat} (hn : 0 < n) (g : Generator) : (below n g).1 < n :=
  drawAbove_lt hn _ _ g

end Generator

end PagedMap
