import FaultInjection.Python.Text

/-!
# SHA-256

The digest that `hashlib` computes for the UTF-8 encoding of a text.  Words are
natural numbers below `2 ^ 32`.
-/

namespace FaultInjection.Sha256

/-- The modulus of word arithmetic. -/
def wordModulus : Nat := 4294967296

def rotateRight (x n : Nat) : Nat := (x >>> n ||| x <<< (32 - n)) % wordModulus

/-- The two rotation mixes of the rounds. -/
def bigSigma0 (x : Nat) : Nat := rotateRight x 2 ^^^ rotateRight x 13 ^^^ rotateRight x 22
def bigSigma1 (x : Nat) : Nat := rotateRight x 6 ^^^ rotateRight x 11 ^^^ rotateRight x 25

/-- The two rotation mixes of the message schedule. -/
def smallSigma0 (x : Nat) : Nat := rotateRight x 7 ^^^ rotateRight x 18 ^^^ x >>> 3
def smallSigma1 (x : Nat) : Nat := rotateRight x 17 ^^^ rotateRight x 19 ^^^ x >>> 10

def choose (x y z : Nat) : Nat := (x &&& y) ^^^ ((wordModulus - 1 - x) &&& z)
def majority (x y z : Nat) : Nat := (x &&& y) ^^^ (x &&& z) ^^^ (y &&& z)

def roundConstants : List Nat := [
  0x428a2f98, 0x71374491, 0xb5c0fbcf, 0xe9b5dba5, 0x3956c25b, 0x59f111f1, 0x923f82a4,
  0xab1c5ed5, 0xd807aa98, 0x12835b01, 0x243185be, 0x550c7dc3, 0x72be5d74, 0x80deb1fe,
  0x9bdc06a7, 0xc19bf174, 0xe49b69c1, 0xefbe4786, 0x0fc19dc6, 0x240ca1cc, 0x2de92c6f,
  0x4a7484aa, 0x5cb0a9dc, 0x76f988da, 0x983e5152, 0xa831c66d, 0xb00327c8, 0xbf597fc7,
  0xc6e00bf3, 0xd5a79147, 0x06ca6351, 0x14292967, 0x27b70a85, 0x2e1b2138, 0x4d2c6dfc,
  0x53380d13, 0x650a7354, 0x766a0abb, 0x81c2c92e, 0x92722c85, 0xa2bfe8a1, 0xa81a664b,
  0xc24b8b70, 0xc76c51a3, 0xd192e819, 0xd6990624, 0xf40e3585, 0x106aa070, 0x19a4c116,
  0x1e376c08, 0x2748774c, 0x34b0bcb5, 0x391c0cb3, 0x4ed8aa4a, 0x5b9cca4f, 0x682e6ff3,
  0x748f82ee, 0x78a5636f, 0x84c87814, 0x8cc70208, 0x90befffa, 0xa4506ceb, 0xbef9a3f7,
  0xc67178f2]

/-- The eight working variables. -/
structure Registers where
  a : Nat
  b : Nat
  c : Nat
  d : Nat
  e : Nat
  f : Nat
  g : Nat
  h : Nat

def initialRegisters : Registers :=
  ⟨0x6a09e667, 0xbb67ae85, 0x3c6ef372, 0xa54ff53a, 0x510e527f, 0x9b05688c, 0x1f83d9ab,
    0x5be0cd19⟩

/-- Apply a continuation to a number; matching on it makes evaluation strict. -/
def strictly {α : Type} (n : Nat) (next : Nat → α) : α :=
  match n with
  | 0 => next 0
  | m + 1 => next (m + 1)

/-- Extend a message schedule, which is kept with its last word first. -/
def extendSchedule : Nat → List Nat → List Nat
  | 0, schedule => schedule
  | count + 1, schedule =>
      strictly ((smallSigma1 (schedule.getD 1 0) + schedule.getD 6 0 +
        smallSigma0 (schedule.getD 14 0) + schedule.getD 15 0) % wordModulus)
        fun word => extendSchedule count (word :: schedule)

def round (r : Registers) (input : Nat × Nat) : Registers :=
  strictly ((r.h + bigSigma1 r.e + choose r.e r.f r.g + input.1 + input.2) % wordModulus)
    fun mixed =>
      strictly ((r.d + mixed) % wordModulus) fun e =>
        strictly ((mixed + bigSigma0 r.a + majority r.a r.b r.c) % wordModulus) fun a =>
          ⟨a, r.a, r.b, r.c, e, r.e, r.f, r.g⟩

/-- Take one block of sixteen words into the working variables. -/
def compress (r : Registers) (block : List Nat) : Registers :=
  let schedule := (extendSchedule 48 block.reverse).reverse
  let s := (roundConstants.zip schedule).foldl round r
  ⟨(r.a + s.a) % wordModulus, (r.b + s.b) % wordModulus, (r.c + s.c) % wordModulus,
    (r.d + s.d) % wordModulus, (r.e + s.e) % wordModulus, (r.f + s.f) % wordModulus,
    (r.g + s.g) % wordModulus, (r.h + s.h) % wordModulus⟩

/-- Big-endian words of a row of bytes. -/
def words : List Nat → List Nat
  | a :: b :: c :: d :: rest => (((a * 256 + b) * 256 + c) * 256 + d) :: words rest
  | _ => []

/-- Pad a message to whole blocks; its length in bits comes last. -/
def pad (message : List Nat) : List Nat :=
  message ++ 128 :: List.replicate ((119 - message.length % 64) % 64) 0 ++
    (List.range 8).map fun i => (8 * message.length) >>> (8 * (7 - i)) % 256

def blocks : Nat → List Nat → List (List Nat)
  | 0, _ => []
  | count + 1, words => words.take 16 :: blocks count (words.drop 16)

/-- A word in eight lower-case hexadecimal digits. -/
def hexWord (word : Nat) : Text :=
  (List.range 8).map fun i => Nat.digitChar (word >>> (4 * (7 - i)) % 16)

def encode (text : Text) : List Nat :=
  text.flatMap fun c => (String.utf8EncodeChar c).map UInt8.toNat

/-- `hashlib.sha256(text.encode()).hexdigest()` -/
def hexdigest (text : Text) : Text :=
  let message := words (pad (encode text))
  let r := (blocks (message.length / 16) message).foldl compress initialRegisters
  [r.a, r.b, r.c, r.d, r.e, r.f, r.g, r.h].flatMap hexWord

theorem length_hexWord (word : Nat) : (hexWord word).length = 8 := by
  rw [hexWord, List.length_map, List.length_range]

theorem length_hexdigest (text : Text) : (hexdigest text).length = 64 := by
  simp only [hexdigest, List.flatMap_cons, List.flatMap_nil, List.length_append,
    length_hexWord, List.length_nil]

/-- A lower-case hexadecimal digit. -/
def isHexDigit (c : Char) : Bool := c.isDigit || ('a' ≤ c && c ≤ 'f')

theorem isHexDigit_of_mem_hexWord {word : Nat} {c : Char} (hc : c ∈ hexWord word) :
    isHexDigit c = true := by
  obtain ⟨i, -, rfl⟩ := List.mem_map.mp hc
  have hdigits : ∀ d : Fin 16, isHexDigit (Nat.digitChar d) = true := by decide
  exact hdigits ⟨_, Nat.mod_lt _ (by decide)⟩

theorem isHexDigit_of_mem_hexdigest {text : Text} {c : Char} (hc : c ∈ hexdigest text) :
    isHexDigit c = true := by
  rw [hexdigest] at hc
  obtain ⟨word, -, hc⟩ := List.mem_flatMap.mp hc
  exact isHexDigit_of_mem_hexWord hc

set_option maxRecDepth 4000 in
example : hexdigest "abc" =
    "ba7816bf8f01cfea414140de5dae2223b00361a396177a9cb410ff61f20015ad".toList := by
  decide +kernel

end FaultInjection.Sha256
