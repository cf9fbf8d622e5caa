import BriskDB.Lib.Bytes

/-!
# BLAKE3

Chunks of 1024 bytes are compressed block by block, and their chaining values are joined by
a binary tree whose left subtrees are complete. A mode sets its flag in every compression:
none for the hash, one for the context of a derived key and one for its material.
-/

namespace Blake3

structure Words where
  w0 : UInt32
  w1 : UInt32
  w2 : UInt32
  w3 : UInt32
  w4 : UInt32
  w5 : UInt32
  w6 : UInt32
  w7 : UInt32

def Words.toList (words : Words) : List UInt32 :=
  [words.w0, words.w1, words.w2, words.w3, words.w4, words.w5, words.w6, words.w7]

def Words.ofList (words : List UInt32) : Words :=
  ⟨words.getD 0 0, words.getD 1 0, words.getD 2 0, words.getD 3 0, words.getD 4 0,
    words.getD 5 0, words.getD 6 0, words.getD 7 0⟩

def iv : Words :=
  ⟨0x6A09E667, 0xBB67AE85, 0x3C6EF372, 0xA54FF53A, 0x510E527F, 0x9B05688C, 0x1F83D9AB,
    0x5BE0CD19⟩

def chunkStart : UInt32 := 1

def chunkEnd : UInt32 := 2

def parent : UInt32 := 4

def root : UInt32 := 8

def deriveKeyContext : UInt32 := 32

def deriveKeyMaterial : UInt32 := 64

def permutation : List Nat := [2, 6, 3, 10, 7, 0, 4, 13, 1, 11, 12, 5, 9, 14, 15, 8]

def rotateRight (word bits : UInt32) : UInt32 := (word >>> bits) ||| (word <<< (32 - bits))

def quarterRound (state : List UInt32) (a b c d : Nat) (x y : UInt32) : List UInt32 :=
  let va := state.getD a 0 + state.getD b 0 + x
  let vd := rotateRight (state.getD d 0 ^^^ va) 16
  let vc := state.getD c 0 + vd
  let vb := rotateRight (state.getD b 0 ^^^ vc) 12
  let va := va + vb + y
  let vd := rotateRight (vd ^^^ va) 8
  let vc := vc + vd
  let vb := rotateRight (vb ^^^ vc) 7
  (((state.set a va).set b vb).set c vc).set d vd

def round (message state : List UInt32) : List UInt32 :=
  [(0, 4, 8, 12), (1, 5, 9, 13), (2, 6, 10, 14), (3, 7, 11, 15),
    (0, 5, 10, 15), (1, 6, 11, 12), (2, 7, 8, 13), (3, 4, 9, 14)].zipIdx.foldl
      (fun state ((a, b, c, d), index) =>
        quarterRound state a b c d (message.getD (2 * index) 0) (message.getD (2 * index + 1) 0))
      state

/-- Seven rounds, with the message words permuted after each. -/
def rounds : Nat → List UInt32 → List UInt32 → List UInt32
  | 0, _, state => state
  | count + 1, message, state =>
    rounds count (permutation.map (message.getD · 0)) (round message state)

def compress (chaining : Words) (block : List UInt32) (counter : Nat) (length flags : UInt32) :
    Words :=
  let state := rounds 7 block (chaining.toList ++ iv.toList.take 4 ++
    [UInt32.ofNat counter, UInt32.ofNat (counter / 2 ^ 32), length, flags])
  Words.ofList ((state.take 8).zipWith (· ^^^ ·) (state.drop 8))

def blockWords (block : List UInt8) : List UInt32 :=
  (List.range 16).map fun index => UInt32.ofNat (Bytes.toLe ((block.drop (4 * index)).take 4))

/-- The chaining value of a chunk from block `index` on; `last` are the last block's flags. -/
def chunkValue (mode : UInt32) (counter : Nat) (last : UInt32) :
    Nat → UInt32 → Words → List UInt8 → Words
  | 0, _, chaining, _ => chaining
  | fuel + 1, first, chaining, bytes =>
    if bytes.length ≤ 64 then
      compress chaining (blockWords bytes) counter (UInt32.ofNat bytes.length)
        (mode ||| first ||| chunkEnd ||| last)
    else
      chunkValue mode counter last fuel 0
        (compress chaining (blockWords (bytes.take 64)) counter 64 (mode ||| first))
        (bytes.drop 64)

/-- How many of `count` chunks go to the left subtree: the greatest power of two below. -/
def leftChunks (count : Nat) : Nat := 2 ^ Nat.log2 (count - 1)

def treeValue (mode : UInt32) (key : Words) (last : UInt32) : Nat → Nat → Nat → List UInt8 → Words
  | 0, _, counter, bytes => chunkValue mode counter last 16 chunkStart key bytes
  | fuel + 1, count, counter, bytes =>
    if count ≤ 1 then chunkValue mode counter last 16 chunkStart key bytes
    else
      let left := leftChunks count
      let leftValue := treeValue mode key 0 fuel left counter (bytes.take (1024 * left))
      let rightValue := treeValue mode key 0 fuel (count - left) (counter + left)
        (bytes.drop (1024 * left))
      compress key (leftValue.toList ++ rightValue.toList) 0 64 (mode ||| parent ||| last)

def rootValue (mode : UInt32) (key : Words) (bytes : List UInt8) : Words :=
  let count := (bytes.length + 1023) / 1024
  treeValue mode key root count count 0 bytes

abbrev Digest := { digest : List UInt8 // digest.length = 32 }

def Words.digest (words : Words) : Digest :=
  ⟨words.toList.flatMap fun word => Bytes.ofLe 4 word.toNat, by simp [Words.toList]⟩

def hash (bytes : List UInt8) : Digest := (rootValue 0 iv bytes).digest

/-- The digest of the material under a key made from the context. -/
def deriveKey (context material : List UInt8) : Digest :=
  (rootValue deriveKeyMaterial (rootValue deriveKeyContext iv context) material).digest

end Blake3
