/-!
# The Mersenne Twister

A generator of pseudorandom words, for any design of it: word size, length of the state, and the
constants of recurrence and tempering.  `Twister.narrow` draws 32-bit words and `Twister.wide`
64-bit words.

The state is a block of words.  When all words of a block have been drawn, the recurrence makes the
next block from it.
-/

namespace Clustering

namespace Twister

/-- The constants of a generator.  All words are held in 64 bits. -/
structure Design where
  /-- The number of bits of a word. -/
  bits : UInt64
  /-- All bits of a word set. -/
  mask : UInt64
  /-- The number of words of the state. -/
  size : Nat
  /-- How far ahead the recurrence looks. -/
  offset : Nat
  /-- The bits of a word that the recurrence takes from the following word. -/
  lowMask : UInt64
  /-- Added by the recurrence where a bit is shifted out. -/
  twist : UInt64
  /-- The multiplier that spreads a seed over the state. -/
  spread : UInt64
  temper₁ : UInt64
  temperMask₁ : UInt64
  temper₂ : UInt64
  temperMask₂ : UInt64
  temper₃ : UInt64
  temperMask₃ : UInt64
  temper₄ : UInt64

/-- The generator of 32-bit words. -/
def narrow : Design where
  bits := 32
  mask := 0xffffffff
  size := 624
  offset := 397
  lowMask := 0x7fffffff
  twist := 0x9908b0df
  spread := 1812433253
  temper₁ := 11
  temperMask₁ := 0xffffffff
  temper₂ := 7
  temperMask₂ := 0x9d2c5680
  temper₃ := 15
  temperMask₃ := 0xefc60000
  temper₄ := 18

/-- The generator of 64-bit words. -/
def wide : Design where
  bits := 64
  mask := 0xffffffffffffffff
  size := 312
  offset := 156
  lowMask := 0x7fffffff
  twist := 0xb5026f5aa96619e9
  spread := 6364136223846793005
  temper₁ := 29
  temperMask₁ := 0x5555555555555555
  temper₂ := 17
  temperMask₂ := 0x71d67fffeda60000
  temper₃ := 37
  temperMask₃ := 0xfff7eee000000000
  temper₄ := 43

end Twister

/-- A generator: its block of words and the position of the next one to draw. -/
structure Twister (d : Twister.Design) where
  words : Array UInt64
  position : Nat

namespace Twister

variable {d : Design}

/-- Extends a state by the word that follows from its last one. -/
def extend (d : Design) (words : Array UInt64) (i : Nat) : Array UInt64 :=
  let last := words.getD (i - 1) 0
  words.push ((d.spread * (last ^^^ (last >>> (d.bits - 2))) + i.toUInt64) &&& d.mask)

/-- The generator that a seed starts.  All its words are used up, so that the first draw makes a
block. -/
def ofSeed (d : Design) (seed : UInt64) : Twister d where
  words := (List.range' 1 (d.size - 1)).foldl (extend d) #[seed &&& d.mask]
  position := d.size

/-- Replaces word `i` of the state by the next word of the recurrence in its place. -/
def turnWord (d : Design) (words : Array UInt64) (i : Nat) : Array UInt64 :=
  let joined :=
    (words.getD i 0 &&& (d.mask ^^^ d.lowMask)) |||
      (words.getD ((i + 1) % d.size) 0 &&& d.lowMask)
  let bent := (joined >>> 1) ^^^ (if joined &&& 1 = 0 then 0 else d.twist)
  words.setIfInBounds i (words.getD ((i + d.offset) % d.size) 0 ^^^ bent)

/-- The next block. -/
def turn (g : Twister d) : Twister d :=
  ⟨(List.range d.size).foldl (turnWord d) g.words, 0⟩

/-- Mixes the bits of a word before it is drawn. -/
def temper (d : Design) (w : UInt64) : UInt64 :=
  let w := w ^^^ ((w >>> d.temper₁) &&& d.temperMask₁)
  let w := w ^^^ ((w <<< d.temper₂) &&& d.temperMask₂)
  let w := w ^^^ ((w <<< d.temper₃) &&& d.temperMask₃)
  w ^^^ (w >>> d.temper₄)

/-- Draws a word. -/
def next (g : Twister d) : UInt64 × Twister d :=
  let g := if g.position < d.size then g else g.turn
  (temper d (g.words.getD g.position 0), { g with position := g.position + 1 })

end Twister

end Clustering
