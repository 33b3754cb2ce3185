import Pobc.Iot.AesGcmSiv

/-!
# The AES of mbedTLS (`mbedtls/library/aes.c`)

Without `MBEDTLS_AES_ROM_TABLES` the tables are computed at the first key set-up and
stay in static memory. A word holds a column of the state, its lowest byte in row 0; a
round is four table look-ups for each column. `int` values are natural numbers, which
stay below 512 here.
-/

namespace Pobc.MbedtlsAes
open Pobc.Loop Pobc.Iot

abbrev Word := BitVec 32

/-- `MBEDTLS_BYTE_0` to `MBEDTLS_BYTE_3`. -/
def wordByte (k : ℕ) (x : Word) : Byte := ((x >>> (8 * k)) &&& 0xff#32).setWidth 8

/-- `MBEDTLS_BYTE_0` of an `int`. -/
def byte0 (x : ℕ) : ℕ := x &&& 0xff

/-! ### Tables -/

structure Tables where
  FSb : ℕ → Byte
  FT0 : ℕ → Word
  FT1 : ℕ → Word
  FT2 : ℕ → Word
  FT3 : ℕ → Word
  RSb : ℕ → Byte
  RT0 : ℕ → Word
  RT1 : ℕ → Word
  RT2 : ℕ → Word
  RT3 : ℕ → Word
  RCON : ℕ → Word

/-- `ROTL8`. -/
def rotl8 (x : Word) : Word := ((x <<< 8) &&& 0xffffffff#32) ||| (x >>> 24)

/-- `XTIME`. -/
def xtime (x : ℕ) : ℕ := (x <<< 1) ^^^ (if x &&& 0x80 ≠ 0 then 0x1b else 0x00)

/-- `MUL`. -/
def mul (pow log : ℕ → ℕ) (x y : ℕ) : ℕ :=
  if x ≠ 0 ∧ y ≠ 0 then pow ((log x + log y) % 255) else 0

structure PowLog where
  pow : ℕ → ℕ
  log : ℕ → ℕ
  x : ℕ

def powLogStep (i : ℕ) (s : PowLog) : PowLog :=
  { pow := Function.update s.pow i s.x
    log := Function.update s.log s.x i
    x := byte0 (s.x ^^^ xtime s.x) }

structure Rcon where
  RCON : ℕ → Word
  x : ℕ

def rconStep (i : ℕ) (s : Rcon) : Rcon :=
  ⟨Function.update s.RCON i (BitVec.ofNat 32 s.x), byte0 (xtime s.x)⟩

/-- The affine map, one turn at a time. -/
def affine (x : ℕ) : ℕ :=
  let y := x
  let y := byte0 ((y <<< 1) ||| (y >>> 7))
  let x := x ^^^ y
  let y := byte0 ((y <<< 1) ||| (y >>> 7))
  let x := x ^^^ y
  let y := byte0 ((y <<< 1) ||| (y >>> 7))
  let x := x ^^^ y
  let y := byte0 ((y <<< 1) ||| (y >>> 7))
  x ^^^ (y ^^^ 0x63)

structure Sboxes where
  FSb : ℕ → Byte
  RSb : ℕ → Byte

/-- A round of `for( i = 1; i < 256; i++ )`. -/
def sboxStep (pow log : ℕ → ℕ) (n : ℕ) (s : Sboxes) : Sboxes :=
  let i := n + 1
  let x := affine (pow (255 - log i))
  ⟨Function.update s.FSb i (BitVec.ofNat 8 x), Function.update s.RSb x (BitVec.ofNat 8 i)⟩

def tableStep (pow log : ℕ → ℕ) (i : ℕ) (t : Tables) : Tables :=
  let x := (t.FSb i).toNat
  let y := byte0 (xtime x)
  let z := byte0 (y ^^^ x)
  let t := { t with FT0 := Function.update t.FT0 i (BitVec.ofNat 32 y ^^^ BitVec.ofNat 32 x <<< 8 ^^^
    BitVec.ofNat 32 x <<< 16 ^^^ BitVec.ofNat 32 z <<< 24) }
  let t := { t with FT1 := Function.update t.FT1 i (rotl8 (t.FT0 i)) }
  let t := { t with FT2 := Function.update t.FT2 i (rotl8 (t.FT1 i)) }
  let t := { t with FT3 := Function.update t.FT3 i (rotl8 (t.FT2 i)) }
  let x := (t.RSb i).toNat
  let t := { t with RT0 := Function.update t.RT0 i (BitVec.ofNat 32 (mul pow log 0x0e x) ^^^
    BitVec.ofNat 32 (mul pow log 0x09 x) <<< 8 ^^^ BitVec.ofNat 32 (mul pow log 0x0d x) <<< 16 ^^^
    BitVec.ofNat 32 (mul pow log 0x0b x) <<< 24) }
  let t := { t with RT1 := Function.update t.RT1 i (rotl8 (t.RT0 i)) }
  let t := { t with RT2 := Function.update t.RT2 i (rotl8 (t.RT1 i)) }
  { t with RT3 := Function.update t.RT3 i (rotl8 (t.RT2 i)) }

/-- `aes_gen_tables` (`aes.c:363-441`) on the static tables; `pow₀` and `log₀` are the
contents of its two arrays at the start. -/
def aesGenTables (pow₀ log₀ : ℕ → ℕ) (t : Tables) : Tables :=
  let logs := forRange 256 powLogStep ⟨pow₀, log₀, 1⟩
  let rcon := forRange 10 rconStep ⟨t.RCON, 1⟩
  let boxes := forRange 255 (sboxStep logs.pow logs.log)
    ⟨Function.update t.FSb 0x00 0x63, Function.update t.RSb 0x63 0x00⟩
  forRange 256 (tableStep logs.pow logs.log)
    { t with FSb := boxes.FSb, RSb := boxes.RSb, RCON := rcon.RCON }

/-! ### Key set-up -/

/-- `mbedtls_aes_context`. -/
structure Context where
  nr : ℕ
  rkOffset : ℕ
  buf : ℕ → Word

/-- `mbedtls_aes_init`. -/
def aesInit : Context := ⟨0, 0, fun _ => 0⟩

/-- The static memory of the library. -/
structure Statics where
  aesInitDone : ℕ
  tables : Tables

/-- The S-box on the bytes of a word, from byte `k` on. -/
def subBytesFrom (FSb : ℕ → Byte) (k : ℕ) (x : Word) : Word :=
  (FSb (wordByte (k % 4) x).toNat).setWidth 32 ^^^
    (FSb (wordByte ((k + 1) % 4) x).toNat).setWidth 32 <<< 8 ^^^
    (FSb (wordByte ((k + 2) % 4) x).toNat).setWidth 32 <<< 16 ^^^
    (FSb (wordByte ((k + 3) % 4) x).toNat).setWidth 32 <<< 24

def round128 (t : Tables) (i : ℕ) (buf : ℕ → Word) : ℕ → Word :=
  let p := 4 * i
  let buf := Function.update buf (p + 4)
    (buf p ^^^ t.RCON i ^^^ subBytesFrom t.FSb 1 (buf (p + 3)))
  let buf := Function.update buf (p + 5) (buf (p + 1) ^^^ buf (p + 4))
  let buf := Function.update buf (p + 6) (buf (p + 2) ^^^ buf (p + 5))
  Function.update buf (p + 7) (buf (p + 3) ^^^ buf (p + 6))

def round192 (t : Tables) (i : ℕ) (buf : ℕ → Word) : ℕ → Word :=
  let p := 6 * i
  let buf := Function.update buf (p + 6)
    (buf p ^^^ t.RCON i ^^^ subBytesFrom t.FSb 1 (buf (p + 5)))
  let buf := Function.update buf (p + 7) (buf (p + 1) ^^^ buf (p + 6))
  let buf := Function.update buf (p + 8) (buf (p + 2) ^^^ buf (p + 7))
  let buf := Function.update buf (p + 9) (buf (p + 3) ^^^ buf (p + 8))
  let buf := Function.update buf (p + 10) (buf (p + 4) ^^^ buf (p + 9))
  Function.update buf (p + 11) (buf (p + 5) ^^^ buf (p + 10))

def round256 (t : Tables) (i : ℕ) (buf : ℕ → Word) : ℕ → Word :=
  let p := 8 * i
  let buf := Function.update buf (p + 8)
    (buf p ^^^ t.RCON i ^^^ subBytesFrom t.FSb 1 (buf (p + 7)))
  let buf := Function.update buf (p + 9) (buf (p + 1) ^^^ buf (p + 8))
  let buf := Function.update buf (p + 10) (buf (p + 2) ^^^ buf (p + 9))
  let buf := Function.update buf (p + 11) (buf (p + 3) ^^^ buf (p + 10))
  let buf := Function.update buf (p + 12) (buf (p + 4) ^^^ subBytesFrom t.FSb 0 (buf (p + 11)))
  let buf := Function.update buf (p + 13) (buf (p + 5) ^^^ buf (p + 12))
  let buf := Function.update buf (p + 14) (buf (p + 6) ^^^ buf (p + 13))
  Function.update buf (p + 15) (buf (p + 7) ^^^ buf (p + 14))

/-- `MBEDTLS_GET_UINT32_LE` on a buffer. -/
def bufferWord (data : Buffer) (offset : ℕ) : Word :=
  (data offset).setWidth 32 ||| (data (offset + 1)).setWidth 32 <<< 8 |||
    (data (offset + 2)).setWidth 32 <<< 16 ||| (data (offset + 3)).setWidth 32 <<< 24

/-- `MBEDTLS_ERR_AES_INVALID_KEY_LENGTH`. -/
def errAesInvalidKeyLength : Int := -0x0020

/-- `MBEDTLS_ERR_AES_BAD_INPUT_DATA`. -/
def errAesBadInputData : Int := -0x0021

structure Setkey where
  ret : Int
  statics : Statics
  ctx : Context

/-- The number of rounds for a key size (`aes.c:517-523`). -/
def roundsOf (keybits : ℕ) : Option ℕ :=
  if keybits = 128 then some 10
  else if keybits = 192 then some 12
  else if keybits = 256 then some 14
  else none

/-- `mbedtls_aes_setkey_enc` (`aes.c:511-617`). -/
def setkeyEnc (pow₀ log₀ : ℕ → ℕ) (g : Statics) (ctx : Context) (key : Buffer) (keybits : ℕ) :
    Setkey :=
  match roundsOf keybits with
  | none => ⟨errAesInvalidKeyLength, g, ctx⟩
  | some nr =>
    let g := if g.aesInitDone = 0 then ⟨1, aesGenTables pow₀ log₀ g.tables⟩ else g
    let t := g.tables
    let buf := forRange (keybits >>> 5)
      (fun i buf => Function.update buf i (bufferWord key (i <<< 2))) ctx.buf
    let buf :=
      if nr = 10 then forRange 10 (round128 t) buf
      else if nr = 12 then forRange 8 (round192 t) buf
      else forRange 7 (round256 t) buf
    ⟨0, g, ⟨nr, 0, buf⟩⟩

/-- The inverse of `MixColumns` on a word, through the S-box (`aes.c:667-670`). -/
def inverseMix (t : Tables) (x : Word) : Word :=
  t.RT0 (t.FSb (wordByte 0 x).toNat).toNat ^^^ t.RT1 (t.FSb (wordByte 1 x).toNat).toNat ^^^
    t.RT2 (t.FSb (wordByte 2 x).toNat).toNat ^^^ t.RT3 (t.FSb (wordByte 3 x).toNat).toNat

/-- `mbedtls_aes_setkey_dec` (`aes.c:624-686`). The round keys go from the last one to the
first; `SK` is at word `4 * i` of `cty` in the round of the loop with counter `i`. -/
def setkeyDec (pow₀ log₀ : ℕ → ℕ) (g : Statics) (ctx : Context) (key : Buffer) (keybits : ℕ) :
    Setkey :=
  let ctx := { ctx with rkOffset := 0 }
  let cty := setkeyEnc pow₀ log₀ g aesInit key keybits
  if cty.ret ≠ 0 then ⟨cty.ret, cty.statics, ctx⟩
  else
    let t := cty.statics.tables
    let nr := cty.ctx.nr
    let SK := fun k => cty.ctx.buf (cty.ctx.rkOffset + k)
    let buf := forRange 4 (fun j buf => Function.update buf j (SK (4 * nr + j))) ctx.buf
    let buf := forRange (nr - 1) (fun n buf =>
      let i := nr - 1 - n
      forRange 4 (fun j buf =>
        Function.update buf (4 * (n + 1) + j) (inverseMix t (SK (4 * i + j)))) buf) buf
    let buf := forRange 4 (fun j buf => Function.update buf (4 * nr + j) (SK j)) buf
    ⟨0, cty.statics, ⟨nr, 0, buf⟩⟩

/-! ### Blocks -/

/-- `t.X` or `t.Y`. -/
structure Quad where
  x0 : Word
  x1 : Word
  x2 : Word
  x3 : Word

/-- The pointer `RK`, as a distance from its start, and the state. -/
structure Rounds where
  p : ℕ
  x : Quad

def fWord (t : Tables) (k y0 y1 y2 y3 : Word) : Word :=
  k ^^^ t.FT0 (wordByte 0 y0).toNat ^^^ t.FT1 (wordByte 1 y1).toNat ^^^
    t.FT2 (wordByte 2 y2).toNat ^^^ t.FT3 (wordByte 3 y3).toNat

/-- `AES_FROUND`. -/
def fround (t : Tables) (RK : ℕ → Word) (s : Rounds) : Rounds :=
  let y := s.x
  ⟨s.p + 4, fWord t (RK s.p) y.x0 y.x1 y.x2 y.x3, fWord t (RK (s.p + 1)) y.x1 y.x2 y.x3 y.x0,
    fWord t (RK (s.p + 2)) y.x2 y.x3 y.x0 y.x1, fWord t (RK (s.p + 3)) y.x3 y.x0 y.x1 y.x2⟩

def rWord (t : Tables) (k y0 y1 y2 y3 : Word) : Word :=
  k ^^^ t.RT0 (wordByte 0 y0).toNat ^^^ t.RT1 (wordByte 1 y1).toNat ^^^
    t.RT2 (wordByte 2 y2).toNat ^^^ t.RT3 (wordByte 3 y3).toNat

/-- `AES_RROUND`. -/
def rround (t : Tables) (RK : ℕ → Word) (s : Rounds) : Rounds :=
  let y := s.x
  ⟨s.p + 4, rWord t (RK s.p) y.x0 y.x3 y.x2 y.x1, rWord t (RK (s.p + 1)) y.x1 y.x0 y.x3 y.x2,
    rWord t (RK (s.p + 2)) y.x2 y.x1 y.x0 y.x3, rWord t (RK (s.p + 3)) y.x3 y.x2 y.x1 y.x0⟩

/-- A word of the last round. -/
def lastWord (box : ℕ → Byte) (k y0 y1 y2 y3 : Word) : Word :=
  k ^^^ (box (wordByte 0 y0).toNat).setWidth 32 ^^^
    (box (wordByte 1 y1).toNat).setWidth 32 <<< 8 ^^^
    (box (wordByte 2 y2).toNat).setWidth 32 <<< 16 ^^^
    (box (wordByte 3 y3).toNat).setWidth 32 <<< 24

/-- The last round of encryption (`aes.c:836-858`). -/
def lastFround (t : Tables) (RK : ℕ → Word) (s : Rounds) : Quad :=
  let y := s.x
  ⟨lastWord t.FSb (RK s.p) y.x0 y.x1 y.x2 y.x3, lastWord t.FSb (RK (s.p + 1)) y.x1 y.x2 y.x3 y.x0,
    lastWord t.FSb (RK (s.p + 2)) y.x2 y.x3 y.x0 y.x1,
    lastWord t.FSb (RK (s.p + 3)) y.x3 y.x0 y.x1 y.x2⟩

/-- The last round of decryption (`aes.c:900-922`). -/
def lastRround (t : Tables) (RK : ℕ → Word) (s : Rounds) : Quad :=
  let y := s.x
  ⟨lastWord t.RSb (RK s.p) y.x0 y.x3 y.x2 y.x1, lastWord t.RSb (RK (s.p + 1)) y.x1 y.x0 y.x3 y.x2,
    lastWord t.RSb (RK (s.p + 2)) y.x2 y.x1 y.x0 y.x3,
    lastWord t.RSb (RK (s.p + 3)) y.x3 y.x2 y.x1 y.x0⟩

def loadQuad (RK : ℕ → Word) (input : Block) : Quad :=
  ⟨getUint32Le input 0 ^^^ RK 0, getUint32Le input 4 ^^^ RK 1, getUint32Le input 8 ^^^ RK 2,
    getUint32Le input 12 ^^^ RK 3⟩

def storeQuad (x : Quad) (output : Block) : Block :=
  putUint32Le x.x3 (putUint32Le x.x2 (putUint32Le x.x1 (putUint32Le x.x0 output 0) 4) 8) 12

/-- `mbedtls_internal_aes_encrypt` (`aes.c:812-869`). -/
def internalAesEncrypt (t : Tables) (ctx : Context) (input output : Block) : Block :=
  let RK := fun k => ctx.buf (ctx.rkOffset + k)
  let s := forRange ((ctx.nr >>> 1) - 1) (fun _ s => fround t RK (fround t RK s))
    ⟨4, loadQuad RK input⟩
  let s := fround t RK s
  storeQuad (lastFround t RK s) output

/-- `mbedtls_internal_aes_decrypt` (`aes.c:876-933`). -/
def internalAesDecrypt (t : Tables) (ctx : Context) (input output : Block) : Block :=
  let RK := fun k => ctx.buf (ctx.rkOffset + k)
  let s := forRange ((ctx.nr >>> 1) - 1) (fun _ s => rround t RK (rround t RK s))
    ⟨4, loadQuad RK input⟩
  let s := rround t RK s
  storeQuad (lastRround t RK s) output

/-- `mbedtls_aes_crypt_ecb` (`aes.c:939-968`); `MBEDTLS_AES_ENCRYPT` is 1 and
`MBEDTLS_AES_DECRYPT` is 0. -/
def cryptEcb (g : Statics) (ctx : Context) (mode : Int) (input output : Block) : Int × Block :=
  if mode ≠ 1 ∧ mode ≠ 0 then (errAesBadInputData, output)
  else if mode = 1 then (0, internalAesEncrypt g.tables ctx input output)
  else (0, internalAesDecrypt g.tables ctx input output)

end Pobc.MbedtlsAes
