import Pobc.Basic
import Pobc.Lib.Bitslice

/-!
# Fixsliced AES-128 (`aes/aes.c`)

The portable cipher and its key schedule. Two blocks travel in eight 32-bit
words, word `i` holding bit `7 - i` of all their bytes; ShiftRows is never done, and
the round keys and MixColumns are moved to follow it. A pointer into the round
keys is an offset into one array of words.
-/

namespace Pobc.Fixslice
open Pobc.Loop Pobc.Bitslice

abbrev Word := BitVec 32
abbrev Words := ℕ → Word

/-! ### Macros -/

def ror (x : Word) (y : ℕ) : Word := (x >>> y) ||| (x <<< (32 - y))

def byteRor6 (x : Word) : Word := ((x >>> 6) &&& 0x03030303#32) ||| ((x &&& 0x3f3f3f3f#32) <<< 2)

def byteRor4 (x : Word) : Word := ((x >>> 4) &&& 0x0f0f0f0f#32) ||| ((x &&& 0x0f0f0f0f#32) <<< 4)

def byteRor2 (x : Word) : Word := ((x >>> 2) &&& 0x3f3f3f3f#32) ||| ((x &&& 0x03030303#32) <<< 6)

/-- `LE_LOAD_32(x + off)`. -/
def leLoad32 (x : Block) (off : ℕ) : Word :=
  ((byteAt x (off + 3)).setWidth 32 <<< 24) ||| ((byteAt x (off + 2)).setWidth 32 <<< 16) |||
    ((byteAt x (off + 1)).setWidth 32 <<< 8) ||| (byteAt x off).setWidth 32

/-- `LE_STORE_32(x + off, y)`. -/
def leStore32 (x : Block) (off : ℕ) (y : Word) : Block :=
  let x := setByte x off ((y &&& 0xff#32).setWidth 8)
  let x := setByte x (off + 1) (((y >>> 8) &&& 0xff#32).setWidth 8)
  let x := setByte x (off + 2) (((y >>> 16) &&& 0xff#32).setWidth 8)
  setByte x (off + 3) ((y >>> 24).setWidth 8)

/-! ### Layers -/

def packing (in0 in1 : Block) : Words :=
  let out : Words := fun i =>
    [leLoad32 in0 0, leLoad32 in1 0, leLoad32 in0 4, leLoad32 in1 4,
      leLoad32 in0 8, leLoad32 in1 8, leLoad32 in0 12, leLoad32 in1 12].getD i 0
  let out := swapMove 1 0 0x55555555#32 1 out
  let out := swapMove 3 2 0x55555555#32 1 out
  let out := swapMove 5 4 0x55555555#32 1 out
  let out := swapMove 7 6 0x55555555#32 1 out
  let out := swapMove 2 0 0x33333333#32 2 out
  let out := swapMove 3 1 0x33333333#32 2 out
  let out := swapMove 6 4 0x33333333#32 2 out
  let out := swapMove 7 5 0x33333333#32 2 out
  let out := swapMove 4 0 0x0f0f0f0f#32 4 out
  let out := swapMove 5 1 0x0f0f0f0f#32 4 out
  let out := swapMove 6 2 0x0f0f0f0f#32 4 out
  swapMove 7 3 0x0f0f0f0f#32 4 out

def unpacking (input : Words) : Block × Block :=
  let input := swapMove 4 0 0x0f0f0f0f#32 4 input
  let input := swapMove 5 1 0x0f0f0f0f#32 4 input
  let input := swapMove 6 2 0x0f0f0f0f#32 4 input
  let input := swapMove 7 3 0x0f0f0f0f#32 4 input
  let input := swapMove 2 0 0x33333333#32 2 input
  let input := swapMove 3 1 0x33333333#32 2 input
  let input := swapMove 6 4 0x33333333#32 2 input
  let input := swapMove 7 5 0x33333333#32 2 input
  let input := swapMove 1 0 0x55555555#32 1 input
  let input := swapMove 3 2 0x55555555#32 1 input
  let input := swapMove 5 4 0x55555555#32 1 input
  let input := swapMove 7 6 0x55555555#32 1 input
  let out0 := leStore32 zeroBlock 0 (input 0)
  let out0 := leStore32 out0 4 (input 2)
  let out0 := leStore32 out0 8 (input 4)
  let out0 := leStore32 out0 12 (input 6)
  let out1 := leStore32 zeroBlock 0 (input 1)
  let out1 := leStore32 out1 4 (input 3)
  let out1 := leStore32 out1 8 (input 5)
  let out1 := leStore32 out1 12 (input 7)
  (out0, out1)

def ark (state rkey : Words) : Words :=
  forRange 8 (fun i state => Function.update state i (state i ^^^ rkey i)) state

/-- The variables of `sbox`. -/
inductive Var where
  | state (i : ℕ)
  | t (i : ℕ)
  deriving DecidableEq

open Var in
/-- The assignments of `sbox`; its four NOTs are left to the round keys. -/
def sboxProgram : List (Gate Var) :=
  [.xor (t 0) (state 3) (state 5), .xor (t 1) (state 0) (state 6), .xor (t 2) (t 1) (t 0),
    .xor (t 3) (state 4) (t 2), .xor (t 4) (t 3) (state 5), .and (t 5) (t 2) (t 4),
    .xor (t 6) (t 4) (state 7), .xor (t 7) (t 3) (state 1), .xor (t 8) (state 0) (state 3),
    .xor (t 9) (t 7) (t 8), .and (t 10) (t 8) (t 9), .xor (t 11) (state 7) (t 9),
    .xor (t 12) (state 0) (state 5), .xor (t 13) (state 1) (state 2), .xor (t 14) (t 4) (t 13),
    .xor (t 15) (t 14) (t 9), .and (t 16) (t 0) (t 15), .xor (t 17) (t 16) (t 10),
    .xor (state 1) (t 14) (t 12), .and (state 2) (t 12) (t 14), .xor (state 2) (state 2) (t 10),
    .xor (state 4) (t 13) (t 9), .xor (state 5) (t 1) (state 4), .and (t 3) (t 1) (state 4),
    .xor (t 10) (state 0) (state 4), .xor (t 13) (t 13) (state 7),
    .xor (state 3) (state 3) (t 13), .and (t 16) (state 3) (state 7), .xor (t 16) (t 16) (t 5),
    .xor (t 16) (t 16) (state 2), .xor (state 1) (state 1) (t 16),
    .xor (state 0) (state 0) (t 13), .and (t 16) (state 0) (t 11), .xor (t 16) (t 16) (t 3),
    .xor (state 2) (state 2) (t 16), .xor (state 2) (state 2) (t 10),
    .xor (state 6) (state 6) (t 13), .and (t 10) (state 6) (t 13), .xor (t 3) (t 3) (t 10),
    .xor (t 3) (t 3) (t 17), .xor (state 5) (state 5) (t 3), .xor (t 3) (state 6) (t 12),
    .and (t 10) (t 3) (t 6), .xor (t 5) (t 5) (t 10), .xor (t 5) (t 5) (t 7),
    .xor (t 5) (t 5) (t 17), .and (t 7) (t 5) (state 5), .xor (t 10) (state 2) (t 7),
    .xor (t 7) (t 7) (state 1), .xor (t 5) (t 5) (state 1), .and (t 16) (t 5) (t 10),
    .xor (state 1) (state 1) (t 16), .and (t 17) (state 1) (state 0),
    .and (t 11) (state 1) (t 11), .xor (t 16) (state 5) (state 2), .and (t 7) (t 7) (t 16),
    .xor (t 7) (t 7) (state 2), .xor (t 16) (t 10) (t 7), .and (state 2) (state 2) (t 16),
    .xor (t 10) (t 10) (state 2), .and (t 10) (t 10) (state 1), .xor (t 5) (t 5) (t 10),
    .xor (t 10) (state 1) (t 5), .and (state 4) (state 4) (t 10), .xor (t 11) (t 11) (state 4),
    .and (t 1) (t 1) (t 10), .and (state 6) (state 6) (t 5), .and (t 10) (t 5) (t 13),
    .xor (state 4) (state 4) (t 10), .xor (state 5) (state 5) (t 7),
    .xor (state 2) (state 2) (state 5), .xor (state 5) (t 5) (state 2),
    .and (t 5) (state 5) (t 14), .and (t 10) (state 5) (t 12), .xor (t 12) (t 7) (state 2),
    .and (t 4) (t 4) (t 12), .and (t 2) (t 2) (t 12), .and (t 3) (t 3) (state 2),
    .and (state 2) (state 2) (t 6), .xor (state 2) (state 2) (t 4),
    .xor (t 13) (state 4) (state 2), .and (state 3) (state 3) (t 7),
    .xor (state 1) (state 1) (t 7), .xor (state 5) (state 5) (state 1),
    .and (t 6) (state 5) (t 15), .xor (state 4) (state 4) (t 6), .and (t 0) (t 0) (state 5),
    .and (state 5) (state 1) (t 9), .xor (state 5) (state 5) (state 4),
    .and (state 1) (state 1) (t 8), .xor (t 6) (state 1) (state 5), .xor (t 0) (t 0) (state 1),
    .xor (state 1) (t 3) (t 0), .xor (t 15) (state 1) (state 3), .xor (t 2) (t 2) (state 1),
    .xor (state 0) (t 2) (state 5), .xor (state 3) (t 2) (t 13),
    .xor (state 1) (state 3) (state 5), .xor (t 0) (t 0) (state 6),
    .and (state 5) (t 7) (state 7), .xor (t 14) (t 4) (state 5), .xor (state 6) (t 1) (t 14),
    .xor (state 6) (state 6) (t 5), .xor (state 6) (state 6) (state 4),
    .xor (state 2) (t 17) (state 6), .xor (state 5) (t 15) (state 2),
    .xor (state 2) (state 2) (t 6), .xor (state 2) (state 2) (t 10), .xor (t 14) (t 14) (t 11),
    .xor (t 0) (t 0) (t 14), .xor (state 6) (state 6) (t 0), .xor (state 7) (t 1) (t 0),
    .xor (state 4) (t 14) (state 3)]

/-- The eight words on entry; every temporary is assigned before it is read. -/
def Var.init {α : Type*} (zero : α) (state : ℕ → α) : Var → α
  | .state i => if i < 8 then state i else zero
  | .t _ => zero

def sbox (state : Words) : Words := fun i =>
  run (· ^^^ ·) (· &&& ·) sboxProgram (Var.init 0 state) (.state i)

def doubleShiftrows (state : Words) : Words :=
  forRange 8 (fun i state => swapMove i i 0x0f000f00#32 4 state) state

def mixcolumns0 (s : Words) : Words :=
  let t3 := ror (byteRor6 (s 0)) 8
  let t0 := s 0 ^^^ t3
  let t1 := ror (byteRor6 (s 7)) 8
  let t2 := s 7 ^^^ t1
  let s := Function.update s 7 (ror (byteRor4 t2) 16 ^^^ t1 ^^^ t0)
  let t1 := ror (byteRor6 (s 6)) 8
  let t4 := t1 ^^^ s 6
  let s := Function.update s 6 (t2 ^^^ t0 ^^^ t1 ^^^ ror (byteRor4 t4) 16)
  let t1 := ror (byteRor6 (s 5)) 8
  let t2 := t1 ^^^ s 5
  let s := Function.update s 5 (t4 ^^^ t1 ^^^ ror (byteRor4 t2) 16)
  let t1 := ror (byteRor6 (s 4)) 8
  let t4 := t1 ^^^ s 4
  let s := Function.update s 4 (t2 ^^^ t0 ^^^ t1 ^^^ ror (byteRor4 t4) 16)
  let t1 := ror (byteRor6 (s 3)) 8
  let t2 := t1 ^^^ s 3
  let s := Function.update s 3 (t4 ^^^ t0 ^^^ t1 ^^^ ror (byteRor4 t2) 16)
  let t1 := ror (byteRor6 (s 2)) 8
  let t4 := t1 ^^^ s 2
  let s := Function.update s 2 (t2 ^^^ t1 ^^^ ror (byteRor4 t4) 16)
  let t1 := ror (byteRor6 (s 1)) 8
  let t2 := t1 ^^^ s 1
  let s := Function.update s 1 (t4 ^^^ t1 ^^^ ror (byteRor4 t2) 16)
  Function.update s 0 (t2 ^^^ t3 ^^^ ror (byteRor4 t0) 16)

def mixcolumns1 (s : Words) : Words :=
  let t0 := s 0 ^^^ ror (byteRor4 (s 0)) 8
  let t1 := s 7 ^^^ ror (byteRor4 (s 7)) 8
  let t2 := s 6
  let s := Function.update s 6 (t1 ^^^ t0)
  let s := Function.update s 7 (s 7 ^^^ (s 6 ^^^ ror t1 16))
  let t1 := ror (byteRor4 t2) 8
  let s := Function.update s 6 (s 6 ^^^ t1)
  let t1 := t1 ^^^ t2
  let s := Function.update s 6 (s 6 ^^^ ror t1 16)
  let t2 := s 5
  let s := Function.update s 5 t1
  let t1 := ror (byteRor4 t2) 8
  let s := Function.update s 5 (s 5 ^^^ t1)
  let t1 := t1 ^^^ t2
  let s := Function.update s 5 (s 5 ^^^ ror t1 16)
  let t2 := s 4
  let s := Function.update s 4 (t1 ^^^ t0)
  let t1 := ror (byteRor4 t2) 8
  let s := Function.update s 4 (s 4 ^^^ t1)
  let t1 := t1 ^^^ t2
  let s := Function.update s 4 (s 4 ^^^ ror t1 16)
  let t2 := s 3
  let s := Function.update s 3 (t1 ^^^ t0)
  let t1 := ror (byteRor4 t2) 8
  let s := Function.update s 3 (s 3 ^^^ t1)
  let t1 := t1 ^^^ t2
  let s := Function.update s 3 (s 3 ^^^ ror t1 16)
  let t2 := s 2
  let s := Function.update s 2 t1
  let t1 := ror (byteRor4 t2) 8
  let s := Function.update s 2 (s 2 ^^^ t1)
  let t1 := t1 ^^^ t2
  let s := Function.update s 2 (s 2 ^^^ ror t1 16)
  let t2 := s 1
  let s := Function.update s 1 t1
  let t1 := ror (byteRor4 t2) 8
  let s := Function.update s 1 (s 1 ^^^ t1)
  let t1 := t1 ^^^ t2
  let s := Function.update s 1 (s 1 ^^^ ror t1 16)
  let t2 := s 0
  let s := Function.update s 0 t1
  let t1 := ror (byteRor4 t2) 8
  let s := Function.update s 0 (s 0 ^^^ t1)
  let t1 := t1 ^^^ t2
  Function.update s 0 (s 0 ^^^ ror t1 16)

def mixcolumns2 (s : Words) : Words :=
  let t3 := ror (byteRor2 (s 0)) 8
  let t0 := s 0 ^^^ t3
  let t1 := ror (byteRor2 (s 7)) 8
  let t2 := s 7 ^^^ t1
  let s := Function.update s 7 (ror (byteRor4 t2) 16 ^^^ t1 ^^^ t0)
  let t1 := ror (byteRor2 (s 6)) 8
  let t4 := t1 ^^^ s 6
  let s := Function.update s 6 (t2 ^^^ t0 ^^^ t1 ^^^ ror (byteRor4 t4) 16)
  let t1 := ror (byteRor2 (s 5)) 8
  let t2 := t1 ^^^ s 5
  let s := Function.update s 5 (t4 ^^^ t1 ^^^ ror (byteRor4 t2) 16)
  let t1 := ror (byteRor2 (s 4)) 8
  let t4 := t1 ^^^ s 4
  let s := Function.update s 4 (t2 ^^^ t0 ^^^ t1 ^^^ ror (byteRor4 t4) 16)
  let t1 := ror (byteRor2 (s 3)) 8
  let t2 := t1 ^^^ s 3
  let s := Function.update s 3 (t4 ^^^ t0 ^^^ t1 ^^^ ror (byteRor4 t2) 16)
  let t1 := ror (byteRor2 (s 2)) 8
  let t4 := t1 ^^^ s 2
  let s := Function.update s 2 (t2 ^^^ t1 ^^^ ror (byteRor4 t4) 16)
  let t1 := ror (byteRor2 (s 1)) 8
  let t2 := t1 ^^^ s 1
  let s := Function.update s 1 (t4 ^^^ t1 ^^^ ror (byteRor4 t2) 16)
  Function.update s 0 (t2 ^^^ t3 ^^^ ror (byteRor4 t0) 16)

def mixcolumns3 (s : Words) : Words :=
  let t0 := s 7 ^^^ ror (s 7) 8
  let t2 := s 0 ^^^ ror (s 0) 8
  let s := Function.update s 7 (t2 ^^^ ror (s 7) 8 ^^^ ror t0 16)
  let t1 := s 6 ^^^ ror (s 6) 8
  let s := Function.update s 6 (t0 ^^^ t2 ^^^ ror (s 6) 8 ^^^ ror t1 16)
  let t0 := s 5 ^^^ ror (s 5) 8
  let s := Function.update s 5 (t1 ^^^ ror (s 5) 8 ^^^ ror t0 16)
  let t1 := s 4 ^^^ ror (s 4) 8
  let s := Function.update s 4 (t0 ^^^ t2 ^^^ ror (s 4) 8 ^^^ ror t1 16)
  let t0 := s 3 ^^^ ror (s 3) 8
  let s := Function.update s 3 (t1 ^^^ t2 ^^^ ror (s 3) 8 ^^^ ror t0 16)
  let t1 := s 2 ^^^ ror (s 2) 8
  let s := Function.update s 2 (t0 ^^^ ror (s 2) 8 ^^^ ror t1 16)
  let t0 := s 1 ^^^ ror (s 1) 8
  let s := Function.update s 1 (t1 ^^^ ror (s 1) 8 ^^^ ror t0 16)
  Function.update s 0 (t0 ^^^ ror (s 0) 8 ^^^ ror t2 16)

/-! ### Encryption -/

/-- The words from `m + off` on. -/
def advance (m : Words) (off : ℕ) : Words := fun i => m (off + i)

/-- `ptext1` is `none` for a null pointer. -/
def aes128EncryptFfs (ptext0 : Block) (ptext1 : Option Block) (rkeys : Words) : Block × Block :=
  let state :=
    match ptext1 with
    | some ptext1 => packing ptext0 ptext1
    | none => packing ptext0 ptext0
  let state := ark state rkeys
  let state := ark (mixcolumns0 (sbox state)) (advance rkeys 8)
  let state := ark (mixcolumns1 (sbox state)) (advance rkeys 16)
  let state := ark (mixcolumns2 (sbox state)) (advance rkeys 24)
  let state := ark (mixcolumns3 (sbox state)) (advance rkeys 32)
  let state := ark (mixcolumns0 (sbox state)) (advance rkeys 40)
  let state := ark (mixcolumns1 (sbox state)) (advance rkeys 48)
  let state := ark (mixcolumns2 (sbox state)) (advance rkeys 56)
  let state := ark (mixcolumns3 (sbox state)) (advance rkeys 64)
  let state := ark (mixcolumns0 (sbox state)) (advance rkeys 72)
  let state := ark (doubleShiftrows (sbox state)) (advance rkeys 80)
  unpacking state

/-! ### Key schedule -/

def invShiftrows1 (rkey : Words) : Words :=
  forRange 8 (fun i rkey => swapMove i i 0x33003300#32 2 (swapMove i i 0x0c0f0300#32 4 rkey)) rkey

def invShiftrows2 (rkey : Words) : Words :=
  forRange 8 (fun i rkey => swapMove i i 0x0f000f00#32 4 rkey) rkey

def invShiftrows3 (rkey : Words) : Words :=
  forRange 8 (fun i rkey => swapMove i i 0x33003300#32 2 (swapMove i i 0x030f0c00#32 4 rkey)) rkey

/-- The NOTs left out of `sbox`, on the words at `rkeys + off`. -/
def notWords (rkeys : Words) (off : ℕ) : Words :=
  let rkeys := Function.update rkeys (off + 1) (rkeys (off + 1) ^^^ 0xffffffff#32)
  let rkeys := Function.update rkeys (off + 2) (rkeys (off + 2) ^^^ 0xffffffff#32)
  let rkeys := Function.update rkeys (off + 6) (rkeys (off + 6) ^^^ 0xffffffff#32)
  Function.update rkeys (off + 7) (rkeys (off + 7) ^^^ 0xffffffff#32)

/-- One round of the loop of `xor_columns`: column by column from the top bits of each
byte down. -/
def xorColumnsWord (prev cur : Word) (idxRor : ℕ) : Word :=
  let v := (prev ^^^ ror cur idxRor) &&& 0xc0c0c0c0#32
  let v := v ||| ((prev ^^^ (v >>> 2)) &&& 0x30303030#32)
  let v := v ||| ((prev ^^^ (v >>> 2)) &&& 0x0c0c0c0c#32)
  v ||| ((prev ^^^ (v >>> 2)) &&& 0x03030303#32)

/-- `xor_columns(rkeys + off, idx_xor, idx_ror)`. -/
def xorColumns (rkeys : Words) (off idxXor idxRor : ℕ) : Words :=
  forRange 8 (fun i rkeys => Function.update rkeys (off + i)
    (xorColumnsWord (rkeys (off + i - idxXor)) (rkeys (off + i)) idxRor)) (notWords rkeys off)

/-- A function called on `rkeys + off`. -/
def onWords (rkeys : Words) (off : ℕ) (f : Words → Words) : Words :=
  fun i => if off ≤ i ∧ i < off + 8 then f (advance rkeys off) (i - off) else rkeys i

/-- One round: `memcpy(rkeys + off, rkeys + off - 8, 32)`, `sbox(rkeys + off)`, the round
constant on the listed words, `xor_columns(rkeys + off, 8, 2)`. -/
def scheduleRound (off : ℕ) (rconst : List ℕ) (rkeys : Words) : Words :=
  let rkeys := onWords rkeys off fun _ => advance rkeys (off - 8)
  let rkeys := onWords rkeys off sbox
  let rkeys := rconst.foldl (fun rkeys i => Function.update rkeys i (rkeys i ^^^ 0x00000300#32)) rkeys
  xorColumns rkeys off 8 2

def aes128KeyscheduleFfs (rkeys : Words) (key : Block) : Words :=
  let rkeys := onWords rkeys 0 fun _ => packing key key
  let rkeys := scheduleRound 8 [15] rkeys
  let rkeys := scheduleRound 16 [22] rkeys
  let rkeys := onWords rkeys 8 invShiftrows1
  let rkeys := scheduleRound 24 [29] rkeys
  let rkeys := onWords rkeys 16 invShiftrows2
  let rkeys := scheduleRound 32 [36] rkeys
  let rkeys := onWords rkeys 24 invShiftrows3
  let rkeys := scheduleRound 40 [43] rkeys
  let rkeys := scheduleRound 48 [50] rkeys
  let rkeys := onWords rkeys 40 invShiftrows1
  let rkeys := scheduleRound 56 [57] rkeys
  let rkeys := onWords rkeys 48 invShiftrows2
  let rkeys := scheduleRound 64 [64] rkeys
  let rkeys := onWords rkeys 56 invShiftrows3
  let rkeys := scheduleRound 72 [79, 78, 76, 75] rkeys
  let rkeys := scheduleRound 80 [86, 85, 83, 82] rkeys
  let rkeys := onWords rkeys 72 invShiftrows1
  forRange 10 (fun n rkeys => notWords rkeys (8 * (n + 1))) rkeys

end Pobc.Fixslice
