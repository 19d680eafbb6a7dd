/-!
The BLAKE3 hash: chunks of 1024 bytes are hashed block by block, and their chaining values are joined
in a binary tree whose left parts are full.
-/
namespace Shorthand.Blake3

abbrev Words (n : Nat) := Vector UInt32 n

def initial : Words 8 :=
  #v[0x6A09E667, 0xBB67AE85, 0x3C6EF372, 0xA54FF53A, 0x510E527F, 0x9B05688C, 0x1F83D9AB, 0x5BE0CD19]

def chunkStart : UInt32 := 1
def chunkEnd : UInt32 := 2
def parent : UInt32 := 4
def root : UInt32 := 8

def rotateRight (x n : UInt32) : UInt32 := (x >>> n) ||| (x <<< (32 - n))

/-- Mixes two message words into a column or a diagonal of the state. -/
def mix (v : Words 16) (a b c d : Fin 16) (x y : UInt32) : Words 16 :=
  let v := v.set a (v[a] + v[b] + x)
  let v := v.set d (rotateRight (v[d] ^^^ v[a]) 16)
  let v := v.set c (v[c] + v[d])
  let v := v.set b (rotateRight (v[b] ^^^ v[c]) 12)
  let v := v.set a (v[a] + v[b] + y)
  let v := v.set d (rotateRight (v[d] ^^^ v[a]) 8)
  let v := v.set c (v[c] + v[d])
  v.set b (rotateRight (v[b] ^^^ v[c]) 7)

def round (v m : Words 16) : Words 16 :=
  let v := mix v 0 4 8 12 m[0] m[1]
  let v := mix v 1 5 9 13 m[2] m[3]
  let v := mix v 2 6 10 14 m[4] m[5]
  let v := mix v 3 7 11 15 m[6] m[7]
  let v := mix v 0 5 10 15 m[8] m[9]
  let v := mix v 1 6 11 12 m[10] m[11]
  let v := mix v 2 7 8 13 m[12] m[13]
  mix v 3 4 9 14 m[14] m[15]

/-- The order of the message words in the next round. -/
def permute (m : Words 16) : Words 16 :=
  #v[m[2], m[6], m[3], m[10], m[7], m[0], m[4], m[13], m[1], m[11], m[12], m[5], m[9], m[14], m[15], m[8]]

def rounds : Nat → Words 16 → Words 16 → Words 16
  | 0, v, _ => v
  | n + 1, v, m => rounds n (round v m) (permute m)

/-- The input of a compression whose flags may still be added to. -/
structure Output where
  chaining : Words 8
  block : Words 16
  counter : UInt64
  length : UInt32
  flags : UInt32

def Output.compress (o : Output) (extra : UInt32) : Words 8 :=
  let h := o.chaining
  let v : Words 16 :=
    #v[h[0], h[1], h[2], h[3], h[4], h[5], h[6], h[7], initial[0], initial[1], initial[2], initial[3],
      o.counter.toUInt32, (o.counter >>> 32).toUInt32, o.length, o.flags ||| extra]
  let v := rounds 7 v o.block
  Vector.ofFn fun i : Fin 8 => v[i.val] ^^^ v[i.val + 8]

/-- The word of four bytes, the least first; missing bytes are zero. -/
def word (bytes : List UInt8) : UInt32 :=
  bytes.foldr (fun b w => w * 256 + b.toUInt32) 0

def blockWords (bytes : List UInt8) : Words 16 :=
  Vector.ofFn fun i : Fin 16 => word ((bytes.drop (4 * i.val)).take 4)

/-- Cuts a list into runs of `size`, the last one maybe shorter; nothing makes one empty run. -/
def runs (size : Nat) : Nat → List UInt8 → List (List UInt8)
  | 0, bytes => [bytes]
  | steps + 1, bytes =>
    if bytes.length ≤ size then [bytes] else bytes.take size :: runs size steps (bytes.drop size)

def absorb (counter : UInt64) (chaining : Words 8) (flags : UInt32) : List (List UInt8) → Output
  | [] => ⟨chaining, blockWords [], counter, 0, flags ||| chunkEnd⟩
  | [block] => ⟨chaining, blockWords block, counter, UInt32.ofNat block.length, flags ||| chunkEnd⟩
  | block :: blocks =>
    let o : Output := ⟨chaining, blockWords block, counter, UInt32.ofNat block.length, flags⟩
    absorb counter (o.compress 0) 0 blocks

def chunk (counter : UInt64) (bytes : List UInt8) : Output :=
  absorb counter initial chunkStart (runs 64 16 bytes)

def join (left right : Output) : Output :=
  ⟨initial, (left.compress 0 ++ right.compress 0).cast rfl, 0, 64, parent⟩

/-- Joins neighbours; one that is left over goes up as it is. -/
def joinPairs : List Output → List Output
  | a :: b :: rest => join a b :: joinPairs rest
  | short => short

def top : Nat → List Output → Output
  | _, [] => chunk 0 []
  | _, [o] => o
  | 0, o :: _ => o
  | steps + 1, os => top steps (joinPairs os)

def hexByte (b : UInt8) : List Char := [Nat.digitChar (b.toNat / 16), Nat.digitChar (b.toNat % 16)]

def wordBytes (w : UInt32) : List UInt8 :=
  [w.toUInt8, (w >>> 8).toUInt8, (w >>> 16).toUInt8, (w >>> 24).toUInt8]

/-- The first 32 bytes of the hash. -/
def hash (bytes : List UInt8) : List UInt8 :=
  let chunks := runs 1024 bytes.length bytes
  let outputs := chunks.zipIdx.map fun (c, i) => chunk (UInt64.ofNat i) c
  ((top chunks.length outputs).compress root).toList.flatMap wordBytes

/-- The hash of a text's UTF-8 bytes, in hexadecimal. -/
def hex (text : String) : String := String.ofList ((hash text.toUTF8.toList).flatMap hexByte)

end Shorthand.Blake3
