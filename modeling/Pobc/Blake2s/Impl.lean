import Pobc.Blake2s.Rfc7693

/-!
# The BLAKE2s library (`blake2s-opt/app/extensions/blake2s/impl.c`)

The incremental and the one-shot interface on the generic 32-bit block function
(`blake2s_ref-32.inc`), which `--generic` selects. The state is kept in bytes. A flag
tells for each call whether the input pointer is aligned to a word, and one for the
machine whether it is little-endian. Lengths are natural numbers; with less than 2^64 - 64
bytes no `size_t` wraps around.
-/

namespace Pobc.Blake2s
open Pobc.Loop

/-! ### The block function -/

/-- `blake2s_state_internal`. -/
structure State where
  h : Buffer
  t : Buffer
  f : Buffer
  leftover : ℕ
  buffer : Buffer

/-- `ROTR32`. -/
def rotr32 (x : Word) (k : ℕ) : Word := (x >>> k) ||| (x <<< (32 - k))

/-- `U8TO32`. -/
def u8to32 (p : Buffer) (off : ℕ) : Word :=
  (p off).setWidth 32 ||| (p (off + 1)).setWidth 32 <<< 8 ||| (p (off + 2)).setWidth 32 <<< 16 |||
    (p (off + 3)).setWidth 32 <<< 24

/-- `U32TO8`. -/
def u32to8 (p : Buffer) (off : ℕ) (v : Word) : Buffer :=
  let p := Function.update p off ((v &&& 0xff#32).setWidth 8)
  let p := Function.update p (off + 1) (((v >>> 8) &&& 0xff#32).setWidth 8)
  let p := Function.update p (off + 2) (((v >>> 16) &&& 0xff#32).setWidth 8)
  Function.update p (off + 3) (((v >>> 24) &&& 0xff#32).setWidth 8)

/-- `Gs`, half of `G`. -/
def gs (a b c d : ℕ) (m : Word) (r1 r2 : ℕ) (v : Words) : Words :=
  let v := Function.update v a (v a + (m + v b))
  let v := Function.update v d (v d ^^^ v a)
  let v := Function.update v d (rotr32 (v d) r1)
  let v := Function.update v c (v c + v d)
  let v := Function.update v b (v b ^^^ v c)
  Function.update v b (rotr32 (v b) r2)

/-- `ROUND`, with its arguments as a list. -/
def round (m : Words) (args : List ℕ) (v : Words) : Words :=
  let x := fun i => m (args.getD i 0)
  let v := gs 0 4 8 12 (x 0) 16 12 v
  let v := gs 1 5 9 13 (x 2) 16 12 v
  let v := gs 0 4 8 12 (x 1) 8 7 v
  let v := gs 1 5 9 13 (x 3) 8 7 v
  let v := gs 2 6 10 14 (x 4) 16 12 v
  let v := gs 3 7 11 15 (x 6) 16 12 v
  let v := gs 2 6 10 14 (x 5) 8 7 v
  let v := gs 3 7 11 15 (x 7) 8 7 v
  let v := gs 0 5 10 15 (x 8) 16 12 v
  let v := gs 1 6 11 12 (x 10) 16 12 v
  let v := gs 0 5 10 15 (x 9) 8 7 v
  let v := gs 1 6 11 12 (x 11) 8 7 v
  let v := gs 2 7 8 13 (x 12) 16 12 v
  let v := gs 3 4 9 14 (x 14) 16 12 v
  let v := gs 2 7 8 13 (x 13) 8 7 v
  gs 3 4 9 14 (x 15) 8 7 v

/-- The ten lines of `ROUND`. -/
def roundArgs : List (List ℕ) :=
  [[0, 1, 2, 3, 4, 5, 6, 7, 8, 9, 10, 11, 12, 13, 14, 15],
    [14, 10, 4, 8, 9, 15, 13, 6, 1, 12, 0, 2, 11, 7, 5, 3],
    [11, 8, 12, 0, 5, 2, 15, 13, 10, 14, 3, 6, 7, 1, 9, 4],
    [7, 9, 3, 1, 13, 12, 11, 14, 2, 6, 5, 10, 4, 0, 15, 8],
    [9, 0, 5, 7, 2, 4, 10, 15, 14, 1, 11, 12, 6, 8, 3, 13],
    [2, 12, 6, 10, 0, 11, 8, 3, 4, 13, 7, 5, 15, 14, 1, 9],
    [12, 5, 1, 15, 14, 13, 4, 10, 0, 7, 6, 3, 9, 2, 8, 11],
    [13, 11, 7, 14, 12, 1, 3, 9, 5, 0, 15, 4, 8, 6, 2, 10],
    [6, 15, 14, 9, 11, 3, 0, 8, 12, 2, 13, 7, 1, 4, 10, 5],
    [10, 2, 8, 4, 7, 6, 1, 5, 15, 11, 9, 14, 3, 12, 13, 0]]

/-- `t0`, `t1` and `h0` to `h7`. -/
structure Chaining where
  t0 : Word
  t1 : Word
  h : Words

/-- The body of `while (1)` up to the test. -/
def compressStep (f0 f1 : Word) (inc : ℕ) (input : Buffer) (s : Chaining) : Chaining :=
  let m : Words := fun i => u8to32 input (4 * i)
  let t0 := s.t0 + BitVec.ofNat 32 inc
  let t1 := if t0.toNat < inc then s.t1 + 1 else s.t1
  let v : Words := fun i =>
    [s.h 0, s.h 1, s.h 2, s.h 3, s.h 4, s.h 5, s.h 6, s.h 7, 0x6a09e667#32, 0xbb67ae85#32,
      0x3c6ef372#32, 0xa54ff53a#32, 0x510e527f#32 ^^^ t0, 0x9b05688c#32 ^^^ t1,
      0x1f83d9ab#32 ^^^ f0, 0x5be0cd19#32 ^^^ f1].getD i 0
  let v := roundArgs.foldl (fun v args => round m args v) v
  ⟨t0, t1, fun i => if i < 8 then s.h i ^^^ (v i ^^^ v (i + 8)) else s.h i⟩

/-- `while (1)`. -/
def blocksLoop (f0 f1 : Word) (inc stride : ℕ) (input : Buffer) (bytes : ℕ) (s : Chaining) :
    Chaining :=
  let s := compressStep f0 f1 inc input s
  if bytes ≤ 64 then s
  else blocksLoop f0 f1 inc stride (fun p => input (p + stride)) (bytes - 64) s
termination_by bytes

/-- `blake2s_blocks_ref` (`blake2s_ref-32.inc:34-169`). -/
def blocks (S : State) (input : Buffer) (bytes stride : ℕ) : State :=
  let f0 := u8to32 S.f 0
  let f1 := u8to32 S.f 4
  let inc := if bytes ≥ 64 then 64 else bytes
  let input : Buffer := if f0 ≠ 0 then fun p => if p < bytes then input p else 0 else input
  let s := blocksLoop f0 f1 inc stride input bytes
    ⟨u8to32 S.t 0, u8to32 S.t 4, fun i => u8to32 S.h (4 * i)⟩
  { S with h := forRange 8 (fun i h => u32to8 h (4 * i) (s.h i)) S.h
           t := u32to8 (u32to8 S.t 0 s.t0) 4 s.t1 }

/-! ### The interface -/

/-- `memcpy(dst + off, src, len)`. -/
def memcpy (dst : Buffer) (off : ℕ) (src : Buffer) (len : ℕ) : Buffer :=
  fun p => if off ≤ p ∧ p < off + len then src (p - off) else dst p

def initLe : List Byte :=
  [0x67 ^^^ 0x20, 0xe6 ^^^ 0x00, 0x09 ^^^ 0x01, 0x6a ^^^ 0x01,
    0x85, 0xae, 0x67, 0xbb,
    0x72, 0xf3, 0x6e, 0x3c,
    0x3a, 0xf5, 0x4f, 0xa5,
    0x7f, 0x52, 0x0e, 0x51,
    0x8c, 0x68, 0x05, 0x9b,
    0xab, 0xd9, 0x83, 0x1f,
    0x19, 0xcd, 0xe0, 0x5b]

/-- `blake2s_init`. -/
def init (S : State) : State :=
  { S with h := memcpy S.h 0 (bufferOf initLe) 32, t := fun _ => 0, f := fun _ => 0, leftover := 0 }

/-- The loop over chunks of an unaligned input; a chunk is read up to `bytes`. -/
def chunkLoop (S : State) (input : Buffer) (left : ℕ) : State :=
  if left = 0 then S
  else
    let bytes := if left > 16 * 64 then 16 * 64 else left
    chunkLoop (blocks S (memcpy (fun _ => 0) 0 input bytes) bytes 64) (fun p => input (p + bytes))
      (left - bytes)
termination_by left
decreasing_by split <;> omega

/-- `blake2s_consume_blocks`: the state and the number of bytes used. -/
def consumeBlocks (aligned : Bool) (S : State) (input : Buffer) (inlen : ℕ) : State × ℕ :=
  if inlen ≤ 64 then (S, 0)
  else
    let inlen := (inlen - 1) / 64 * 64
    if aligned then (blocks S input inlen 64, inlen) else (chunkLoop S input inlen, inlen)

/-- What is left to hash: the state, the input pointer and the number of bytes. -/
structure Pending where
  S : State
  input : Buffer
  inlen : ℕ

/-- The first part of `blake2s_update`: the previous data, filled up to a block. -/
def previousData (S : State) (input : Buffer) (inlen : ℕ) : Pending :=
  if S.leftover ≠ 0 then
    let bytes := 64 - S.leftover
    let buffer := memcpy S.buffer S.leftover input bytes
    let S := { S with buffer := buffer, leftover := 0 }
    ⟨blocks S S.buffer 64 0, fun p => input (p + bytes), inlen - bytes⟩
  else ⟨S, input, inlen⟩

/-- The second part: the direct data. -/
def directData (aligned : Bool) (d : Pending) : Pending :=
  let (S, bytes) := consumeBlocks aligned d.S d.input d.inlen
  ⟨S, fun p => d.input (p + bytes), d.inlen - bytes⟩

/-- `blake2s_update`. -/
def update (aligned : Bool) (S : State) (input : Buffer) (inlen : ℕ) : State :=
  let d := if S.leftover + inlen > 64 then directData aligned (previousData S input inlen)
    else ⟨S, input, inlen⟩
  { d.S with buffer := memcpy d.S.buffer d.S.leftover d.input d.inlen
             leftover := d.S.leftover + d.inlen }

/-- `blake2s_store_hash`. -/
def storeHash (littleEndian : Bool) (S : State) (hash : Buffer) : Buffer :=
  if littleEndian then memcpy hash 0 S.h 32
  else fun p => if p < 32 then S.h (p / 4 * 4 + (3 - p % 4)) else hash p

/-- `memset(&state->f[0], 0xff, 4)`. -/
def setLast (S : State) : State := { S with f := fun p => if p < 4 then 0xff else S.f p }

/-- `blake2s_final`. -/
def final (littleEndian : Bool) (S : State) (hash : Buffer) : Buffer :=
  let S := setLast S
  storeHash littleEndian (blocks S S.buffer S.leftover 0) hash

/-- `blake2s`, with whatever is on the stack in `S`. -/
def oneShot (littleEndian aligned : Bool) (S : State) (hash input : Buffer) (inlen : ℕ) : Buffer :=
  let S := init S
  let (S, bytes) := consumeBlocks aligned S input inlen
  let S := setLast S
  storeHash littleEndian (blocks S (fun p => input (p + bytes)) (inlen - bytes) 0) hash

/-- `blake2s_keyed_init`; `none` is the end of the program. -/
def keyedInit (aligned : Bool) (S : State) (key : Buffer) (keylen : ℕ) : Option State :=
  if keylen > 32 then none
  else some (update aligned (init S) (memcpy (fun _ => 0) 0 key keylen) 64)

/-- `blake2s_keyed`. -/
def keyed (littleEndian alignedKey aligned : Bool) (S : State) (hash input : Buffer) (inlen : ℕ)
    (key : Buffer) (keylen : ℕ) : Option Buffer :=
  (keyedInit alignedKey S key keylen).map fun S => final littleEndian (update aligned S input inlen) hash

end Pobc.Blake2s
