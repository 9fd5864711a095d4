/-!
The ChaCha key stream with eight rounds. A block of sixteen words is a function of the 256-bit key
and of the block's number; the words of block 0, 1, 2 … in order are the stream.
-/
namespace GeneralGame.KeyStream

abbrev Block := Vector UInt32 16

abbrev Key := Vector UInt32 8

def rotateLeft (x : UInt32) (n : UInt32) : UInt32 := (x <<< n) ||| (x >>> (32 - n))

/-- Mixes the four words at the given places. -/
def quarterRound (b : Block) (i j k l : Fin 16) : Block :=
  let x := b[i] + b[j]
  let w := rotateLeft (b[l] ^^^ x) 16
  let z := b[k] + w
  let y := rotateLeft (b[j] ^^^ z) 12
  let x := x + y
  let w := rotateLeft (w ^^^ x) 8
  let z := z + w
  let y := rotateLeft (y ^^^ z) 7
  (((b.set i x).set j y).set k z).set l w

/-- A round over the columns and one over the diagonals. -/
def doubleRound (b : Block) : Block :=
  let b := quarterRound b 0 4 8 12
  let b := quarterRound b 1 5 9 13
  let b := quarterRound b 2 6 10 14
  let b := quarterRound b 3 7 11 15
  let b := quarterRound b 0 5 10 15
  let b := quarterRound b 1 6 11 12
  let b := quarterRound b 2 7 8 13
  quarterRound b 3 4 9 14

/-- The constants, the key, the block's number as 64 bits and a zero nonce. -/
def start (key : Key) (number : Nat) : Block :=
  #v[0x61707865, 0x3320646e, 0x79622d32, 0x6b206574,
    key[0], key[1], key[2], key[3], key[4], key[5], key[6], key[7],
    UInt32.ofNat number, UInt32.ofNat (number >>> 32), 0, 0]

def block (key : Key) (number : Nat) : Block :=
  let b := start key number
  (doubleRound (doubleRound (doubleRound (doubleRound b)))).zipWith (· + ·) b

/-- One step of the generator that spreads a seed over a key. -/
def spread (s : UInt64) : UInt64 := s * 6364136223846793005 + 11634580027462260723

/-- The word that a state of that generator stands for. -/
def spreadWord (s : UInt64) : UInt32 :=
  let x := (((s >>> 18) ^^^ s) >>> 27).toUInt32
  let n := (s >>> 59).toUInt32
  (x >>> n) ||| (x <<< (32 - n))

/-- The key of a seed. -/
def keyOfSeed (seed : UInt64) : Key :=
  let s0 := spread seed
  let s1 := spread s0
  let s2 := spread s1
  let s3 := spread s2
  let s4 := spread s3
  let s5 := spread s4
  let s6 := spread s5
  let s7 := spread s6
  #v[spreadWord s0, spreadWord s1, spreadWord s2, spreadWord s3,
    spreadWord s4, spreadWord s5, spreadWord s6, spreadWord s7]

end GeneralGame.KeyStream
