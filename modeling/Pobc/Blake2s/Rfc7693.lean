import Pobc.Basic
import Pobc.Lib.Loop

/-!
# BLAKE2s (RFC 7693)

The compression function `F` and the hash of a byte string with 32 bytes of digest. A
sequence of words is a function; the last block is padded with zeros and its counter is
the length of the string.
-/

namespace Pobc.Blake2s
open Pobc.Loop

abbrev Word := BitVec 32
abbrev Words := ℕ → Word

/-! ### Compression -/

def iv : Words := fun i =>
  [0x6a09e667#32, 0xbb67ae85#32, 0x3c6ef372#32, 0xa54ff53a#32, 0x510e527f#32, 0x9b05688c#32,
    0x1f83d9ab#32, 0x5be0cd19#32].getD i 0

def sigma : List (List ℕ) :=
  [[0, 1, 2, 3, 4, 5, 6, 7, 8, 9, 10, 11, 12, 13, 14, 15],
    [14, 10, 4, 8, 9, 15, 13, 6, 1, 12, 0, 2, 11, 7, 5, 3],
    [11, 8, 12, 0, 5, 2, 15, 13, 10, 14, 3, 6, 7, 1, 9, 4],
    [7, 9, 3, 1, 13, 12, 11, 14, 2, 6, 5, 10, 4, 0, 15, 8],
    [9, 0, 5, 7, 2, 4, 10, 15, 14, 1, 11, 12, 6, 8, 3, 13],
    [2, 12, 6, 10, 0, 11, 8, 3, 4, 13, 7, 5, 15, 14, 1, 9],
    [12, 5, 1, 15, 14, 13, 4, 10, 0, 7, 6, 3, 9, 2, 8, 11],
    [13, 11, 7, 14, 12, 1, 3, 9, 5, 0, 15, 4, 8, 6, 2, 10],
    [6, 15, 14, 9, 11, 3, 0, 8, 12, 2, 13, 7, 1, 4, 10, 5],
    [10, 2, 8, 4, 7, 6, 1, 5, 15, 11, 9, 14, 3, 12, 13, 0]]

/-- The mixing function `G`. -/
def g (a b c d : ℕ) (x y : Word) (v : Words) : Words :=
  let v := Function.update v a (v a + v b + x)
  let v := Function.update v d ((v d ^^^ v a).rotateRight 16)
  let v := Function.update v c (v c + v d)
  let v := Function.update v b ((v b ^^^ v c).rotateRight 12)
  let v := Function.update v a (v a + v b + y)
  let v := Function.update v d ((v d ^^^ v a).rotateRight 8)
  let v := Function.update v c (v c + v d)
  Function.update v b ((v b ^^^ v c).rotateRight 7)

/-- A round with the message words in the order `s`. -/
def mixRound (m : Words) (s : List ℕ) (v : Words) : Words :=
  let x := fun i => m (s.getD i 0)
  let v := g 0 4 8 12 (x 0) (x 1) v
  let v := g 1 5 9 13 (x 2) (x 3) v
  let v := g 2 6 10 14 (x 4) (x 5) v
  let v := g 3 7 11 15 (x 6) (x 7) v
  let v := g 0 5 10 15 (x 8) (x 9) v
  let v := g 1 6 11 12 (x 10) (x 11) v
  let v := g 2 7 8 13 (x 12) (x 13) v
  g 3 4 9 14 (x 14) (x 15) v

/-- The working vector at the start. -/
def workVector (h : Words) (t : ℕ) (f : Bool) : Words :=
  let v : Words := fun i => if i < 8 then h i else iv (i - 8)
  let v := Function.update v 12 (v 12 ^^^ BitVec.ofNat 32 t)
  let v := Function.update v 13 (v 13 ^^^ BitVec.ofNat 32 (t >>> 32))
  if f then Function.update v 14 (v 14 ^^^ 0xffffffff#32) else v

/-- `F`, with the byte counter `t` and the flag of the last block. -/
def compress (h m : Words) (t : ℕ) (f : Bool) : Words :=
  let v := sigma.foldl (fun v s => mixRound m s v) (workVector h t f)
  fun i => if i < 8 then h i ^^^ v i ^^^ v (i + 8) else h i

/-! ### The hash -/

/-- Four bytes, the lowest one first. -/
def leWord (data : Buffer) (p : ℕ) : Word :=
  (data p).setWidth 32 ||| (data (p + 1)).setWidth 32 <<< 8 |||
    (data (p + 2)).setWidth 32 <<< 16 ||| (data (p + 3)).setWidth 32 <<< 24

/-- The words of the block at `p`. -/
def blockWords (data : Buffer) (p : ℕ) : Words := fun i => leWord data (p + 4 * i)

/-- The state after `n` full blocks. -/
def chain (h : Words) (data : Buffer) (n : ℕ) : Words :=
  forRange n (fun i h => compress h (blockWords data (64 * i)) (64 * (i + 1)) false) h

/-- The number of blocks before the last one; the last one has a byte unless there is none. -/
def lastBlock (len : ℕ) : ℕ := (len - 1) / 64

/-- `h[0]` with the parameters of sequential mode: digest and key length, fan-out, depth. -/
def start (keylen : ℕ) : Words :=
  Function.update iv 0 (iv 0 ^^^ 0x01010000#32 ^^^ BitVec.ofNat 32 (keylen <<< 8) ^^^ 32#32)

def hashWords (keylen : ℕ) (data : List Byte) : Words :=
  let n := lastBlock data.length
  compress (chain (start keylen) (bufferOf data) n) (blockWords (bufferOf data) (64 * n))
    data.length true

/-- Byte `p` of the digest. -/
def digest (h : Words) : Buffer := fun p => (h (p / 4) >>> (8 * (p % 4))).setWidth 8

/-- A key in a block of its own. -/
def keyBlock (key : List Byte) : List Byte := key ++ List.replicate (64 - key.length) 0

/-- `BLAKE2s` with a digest of 32 bytes; no key is the empty key. -/
def blake2s (key data : List Byte) : List Byte :=
  let input := if key.length = 0 then data else keyBlock key ++ data
  bytesOf (digest (hashWords key.length input)) 32

/- Appendix B, "abc". -/
example : blake2s [] [0x61, 0x62, 0x63] =
    [0x50, 0x8c, 0x5e, 0x8c, 0x32, 0x7c, 0x14, 0xe2, 0xe1, 0xa7, 0x2b, 0xa3, 0x4e, 0xeb, 0x45, 0x2f,
      0x37, 0x45, 0x8b, 0x20, 0x9e, 0xd6, 0x3a, 0x29, 0x4d, 0x99, 0x9b, 0x4c, 0x86, 0x67, 0x59,
      0x82] := by decide +kernel

end Pobc.Blake2s
