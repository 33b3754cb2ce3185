import Pobc.Basic
import Pobc.Lib.Loop
import Pobc.Lib.Clmul

/-!
# POLYVAL on 32-bit words (`aes/polyval.c`)

The hash of AES-GCM-SIV when `USE_GHASH_POLY` is not defined. A carry-less product
of two words is an integer product with holes between the bits; three levels of
Karatsuba put 18 of them together, and a word-wise reduction takes the low half of
the product away.
-/

namespace Pobc.Polyval
open Pobc.Loop

abbrev Word := BitVec 32
abbrev Words := ℕ → Word

structure PolyvalContext where
  h : Words
  s : Words

/-- `GET_UINT32_LE`. -/
def getUint32Le (data : Block) (offset : ℕ) : Word :=
  (byteAt data offset).setWidth 32 ||| (byteAt data (offset + 1)).setWidth 32 <<< 8 |||
    (byteAt data (offset + 2)).setWidth 32 <<< 16 ||| (byteAt data (offset + 3)).setWidth 32 <<< 24

/-- `PUT_UINT32_LE`. -/
def putUint32Le (n : Word) (data : Block) (offset : ℕ) : Block :=
  setByte (setByte (setByte (setByte data offset ((n &&& 0xff#32).setWidth 8))
    (offset + 1) (((n >>> 8) &&& 0xff#32).setWidth 8))
    (offset + 2) (((n >>> 16) &&& 0xff#32).setWidth 8))
    (offset + 3) (((n >>> 24) &&& 0xff#32).setWidth 8)

/-- The words of a block. -/
def loadWords (data : Block) : Words := fun i =>
  [getUint32Le data 0, getUint32Le data 4, getUint32Le data 8, getUint32Le data 12].getD i 0

def polyvalInit (key : Block) : PolyvalContext := ⟨loadWords key, fun _ => 0⟩

def rev32 (x : Word) : Word :=
  let x := ((x &&& 0x55555555#32) <<< 1) ||| ((x >>> 1) &&& 0x55555555#32)
  let x := ((x &&& 0x33333333#32) <<< 2) ||| ((x >>> 2) &&& 0x33333333#32)
  let x := ((x &&& 0x0f0f0f0f#32) <<< 4) ||| ((x >>> 4) &&& 0x0f0f0f0f#32)
  let x := ((x &&& 0x00ff00ff#32) <<< 8) ||| ((x >>> 8) &&& 0x00ff00ff#32)
  (x <<< 16) ||| (x >>> 16)

def bmul32 (x y : Word) : Word :=
  let x0 := x &&& 0x11111111#32
  let x1 := x &&& 0x22222222#32
  let x2 := x &&& 0x44444444#32
  let x3 := x &&& 0x88888888#32
  let y0 := y &&& 0x11111111#32
  let y1 := y &&& 0x22222222#32
  let y2 := y &&& 0x44444444#32
  let y3 := y &&& 0x88888888#32
  let z0 := (x0 * y0) ^^^ (x1 * y3) ^^^ (x2 * y2) ^^^ (x3 * y1)
  let z1 := (x0 * y1) ^^^ (x1 * y0) ^^^ (x2 * y3) ^^^ (x3 * y2)
  let z2 := (x0 * y2) ^^^ (x1 * y1) ^^^ (x2 * y0) ^^^ (x3 * y3)
  let z3 := (x0 * y3) ^^^ (x1 * y2) ^^^ (x2 * y1) ^^^ (x3 * y0)
  let z0 := z0 &&& 0x11111111#32
  let z1 := z1 &&& 0x22222222#32
  let z2 := z2 &&& 0x44444444#32
  let z3 := z3 &&& 0x88888888#32
  z0 ||| z1 ||| z2 ||| z3

/-- The arrays `a` and `b` of `mul` before the products: the four words, their Karatsuba
sums, and the same for the reversed words. -/
def operands (w : Words) : Words :=
  let a := fun i => [w 0, w 1, w 2, w 3].getD i 0
  let a := Function.update a 4 (a 0 ^^^ a 1)
  let a := Function.update a 5 (a 2 ^^^ a 3)
  let a := Function.update a 6 (a 0 ^^^ a 2)
  let a := Function.update a 7 (a 1 ^^^ a 3)
  let a := Function.update a 8 (a 6 ^^^ a 7)
  let a := Function.update a 9 (rev32 (w 0))
  let a := Function.update a 10 (rev32 (w 1))
  let a := Function.update a 11 (rev32 (w 2))
  let a := Function.update a 12 (rev32 (w 3))
  let a := Function.update a 13 (a 9 ^^^ a 10)
  let a := Function.update a 14 (a 11 ^^^ a 12)
  let a := Function.update a 15 (a 9 ^^^ a 11)
  let a := Function.update a 16 (a 10 ^^^ a 12)
  Function.update a 17 (a 15 ^^^ a 16)

/-- The 256-bit product in eight words, before the reduction. -/
def product (x y : Words) : Words :=
  let b := operands x
  let a := forRange 18 (fun i a => Function.update a i (bmul32 (a i) (b i))) (operands y)
  let a := Function.update a 4 (a 4 ^^^ (a 0 ^^^ a 1))
  let a := Function.update a 5 (a 5 ^^^ (a 2 ^^^ a 3))
  let a := Function.update a 8 (a 8 ^^^ (a 6 ^^^ a 7))
  let a := Function.update a 13 (a 13 ^^^ (a 9 ^^^ a 10))
  let a := Function.update a 14 (a 14 ^^^ (a 11 ^^^ a 12))
  let a := Function.update a 17 (a 17 ^^^ (a 15 ^^^ a 16))
  fun i =>
    [a 0,
      a 4 ^^^ (rev32 (a 9) >>> 1),
      a 1 ^^^ a 0 ^^^ a 2 ^^^ a 6 ^^^ (rev32 (a 13) >>> 1),
      a 4 ^^^ a 5 ^^^ a 8 ^^^ (rev32 (a 10 ^^^ a 9 ^^^ a 11 ^^^ a 15) >>> 1),
      a 2 ^^^ a 1 ^^^ a 3 ^^^ a 7 ^^^ (rev32 (a 13 ^^^ a 14 ^^^ a 17) >>> 1),
      a 5 ^^^ (rev32 (a 11 ^^^ a 10 ^^^ a 12 ^^^ a 16) >>> 1),
      a 3 ^^^ (rev32 (a 14) >>> 1),
      rev32 (a 12) >>> 1].getD i (b i)

/-- A round of the reduction: word `i` is cancelled by a multiple of the modulus. -/
def reduceStep (i : ℕ) (b : Words) : Words :=
  let lw := b i
  let b := Function.update b (i + 4) (b (i + 4) ^^^
    (lw ^^^ (lw >>> 1) ^^^ (lw >>> 2) ^^^ (lw >>> 7)))
  Function.update b (i + 3) (b (i + 3) ^^^ ((lw <<< 31) ^^^ (lw <<< 30) ^^^ (lw <<< 25)))

/-- `mul`, which leaves the result in `x`. -/
def mul (x y : Words) : Words :=
  let b := forRange 4 reduceStep (product x y)
  fun i => [b 4, b 5, b 6, b 7].getD i 0

def polyvalProcessBlock (ctx : PolyvalContext) (block : Block) : PolyvalContext :=
  let x := loadWords block
  let s := forRange 4 (fun i s => Function.update s i (s i ^^^ x i)) ctx.s
  { ctx with s := mul s ctx.h }

def polyvalFinalize (ctx : PolyvalContext) (output : Block) : Block :=
  let output := putUint32Le (ctx.s 0) output 0
  let output := putUint32Le (ctx.s 1) output 4
  let output := putUint32Le (ctx.s 2) output 8
  putUint32Le (ctx.s 3) output 12

end Pobc.Polyval
