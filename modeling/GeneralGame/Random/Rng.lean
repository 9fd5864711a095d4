import GeneralGame.Random.KeyStream
import GeneralGame.Random.Uniform

/-!
Seeded random draws. A generator is a seed and the number of words drawn from the seed's stream, so
equal seeds draw equally; forks have seeds of their own and take nothing from their parent's stream.
-/
namespace GeneralGame

structure Rng where
  seed : UInt64
  /-- How often the generator was forked. -/
  forks : UInt64
  /-- How many words of the stream were drawn. -/
  drawn : Nat
  /-- The block that the next word is in. -/
  block : KeyStream.Block
  block_eq : block = KeyStream.block (KeyStream.keyOfSeed seed) (drawn / 16)

namespace Rng

@[ext]
theorem ext {a b : Rng} (hseed : a.seed = b.seed) (hforks : a.forks = b.forks)
    (hdrawn : a.drawn = b.drawn) : a = b := by
  cases a with
  | mk seed forks drawn block hblock =>
    cases b with
    | mk seed' forks' drawn' block' hblock' =>
      simp only at hseed hforks hdrawn
      subst hseed hforks hdrawn hblock hblock'
      rfl

/-- The generator that has drawn `drawn` words of a seed's stream. -/
def after (seed forks : UInt64) (drawn : Nat) : Rng := ⟨seed, forks, drawn, _, rfl⟩

def ofSeed (seed : UInt64) : Rng := .after seed 0 0

/-- The next word of the stream. -/
def nextWord (g : Rng) : UInt32 × Rng :=
  let word := g.block.get ⟨g.drawn % 16, Nat.mod_lt _ (by decide)⟩
  if h : (g.drawn + 1) % 16 = 0 then (word, .after g.seed g.forks (g.drawn + 1))
  else (word, { g with
    drawn := g.drawn + 1
    block_eq := by rw [g.block_eq, show (g.drawn + 1) / 16 = g.drawn / 16 by omega] })

/-- How many bits of the stream one draw takes. -/
inductive Width where
  | narrow
  | wide
deriving DecidableEq

def Width.bits : Width → Nat
  | narrow => 32
  | wide => 64

/-- The next word, or the next two as one with the first as its low half. -/
def nextBits (g : Rng) : (w : Width) → BitVec w.bits × Rng
  | .narrow =>
    let (x, g) := g.nextWord
    (x.toBitVec, g)
  | .wide =>
    let (low, g) := g.nextWord
    let (high, g) := g.nextWord
    (high.toBitVec ++ low.toBitVec, g)

/-- How many words a draw refuses before it gives up. No stream comes near it. -/
def patience : Nat := 1 <<< 62

/-- Draws until a word chooses one of `n` places, `fuel` times at most. -/
def drawWithin (w : Width) (n : Nat) (pos : 0 < n) : Nat → Rng → Option (Fin n × Rng)
  | 0, _ => none
  | fuel + 1, g =>
    let (v, g) := g.nextBits w
    match Uniform.place? w.bits n pos v with
    | some i => some (i, g)
    | none => drawWithin w n pos fuel g

/-- A uniform choice of one of `n` places. -/
def draw (g : Rng) (w : Width) (n : Nat) (pos : 0 < n) : Option (Fin n × Rng) :=
  drawWithin w n pos patience g

/-- A uniform choice from the numbers `low … high - 1`. -/
def inRange (g : Rng) (low high : Nat) (h : low < high) : Option (Nat × Rng) :=
  (g.draw .wide (high - low) (Nat.sub_pos_of_lt h)).map fun (i, g) => (low + i, g)

/-- The width in which a place of a list is chosen. -/
def Width.forList (size : Nat) : Width := if size < UInt32.size then .narrow else .wide

/-- How far apart the seeds of neighbouring forks are. -/
def forkStep : UInt64 := 0x9E3779B97F4A7C15

/-- The next fork, and the generator that remembers it. -/
def fork (g : Rng) : Rng × Rng :=
  let forks := g.forks + 1
  (ofSeed (g.seed + forks * forkStep), { g with forks })

end Rng

end GeneralGame
