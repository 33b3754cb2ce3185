import Pobc.Iot.AesPobc

/-!
# AES-POBC-SIV (`aes-pobc/aes_pobc_siv.c`)

`pobc_mac` chains every block into the running nonce before it is enciphered, so
the cipher inputs of a loop are a function of the bytes it reads (`macInputs`)
and the synthetic IV depends on them only through one sum per byte column.

Lengths are natural numbers below 2^64, on which no expression of the source
wraps around.
-/

namespace Pobc.Iot
open Pobc.Loop

structure MacState where
  ctx : AesContext
  y : Block
  nonce : Block

/-- `block` before it is chained (`aes_pobc_siv.c:40-45`, `60-65`). -/
def padBlock (data : Buffer) (datalen i : ℕ) : Block :=
  let copyLen := if datalen - i * 16 < 16 then datalen - i * 16 else 16
  let block : Block := fun j => if j.val < copyLen then data (i * 16 + j) else zeroBlock j
  if copyLen < 16 then setByte block copyLen 0x80 else block

def macStep (data : Buffer) (datalen i : ℕ) (s : MacState) : MacState :=
  let nonce := xorBlocks s.nonce (padBlock data datalen i)
  let (ctx, block) := aesEcbEncryptSafe s.ctx nonce
  { ctx := ctx
    y := xorBlocks s.y block
    nonce := gcmIncr nonce }

def macStart : Block := setByte zeroBlock 0 0x01

/-- One loop of `pobc_mac` (`aes_pobc_siv.c:35-51`, `52-70`). -/
def macLoop (data : Buffer) (datalen : ℕ) (ctx : AesContext) (y : Block) : MacState :=
  let blocks := datalen / 16 + 1
  forRange blocks (macStep data datalen) ⟨ctx, y, macStart⟩

/-- `final_nonce` (`aes_pobc_siv.c:71-73`): `y` with its first byte cleared. -/
def finalNonce (y : Block) : Block := fun j => if j.val < 1 then 0 else y j

structure MacOutput where
  ret : Int
  iv : Block
  inputs : List Block

/-- `pobc_mac` (`aes_pobc_siv.c:22-77`), whose key set-up is number `call` of the
function that calls it. -/
def pobcMac (lib : Mbedtls) (call : ℕ) (iv₀ : Block) (ad : Buffer) (adlen : ℕ) (m : Buffer)
    (mlen : ℕ) (k : Block) : MacOutput :=
  let ret := lib.setkeyEnc call k
  if ret ≠ 0 then ⟨ret, iv₀, []⟩
  else
    let s := macLoop ad adlen ⟨lib.cryptEcb k, []⟩ zeroBlock
    let s := macLoop m mlen s.ctx s.y
    let (ctx, iv) := aesEcbEncryptSafe s.ctx (finalNonce s.y)
    ⟨0, iv, ctx.inputs⟩

def sivStreamStep (src : Buffer) (len : ℕ) (s : StreamState) : StreamState :=
  let (ctx, streamBlock) := aesEcbEncryptSafe s.ctx s.nonceCounter
  let chunk := if len - s.i < 16 then len - s.i else 16
  { i := s.i + chunk
    ctx := ctx
    nonceCounter := gcmIncr s.nonceCounter
    c := writeBytes s.c s.i chunk fun j => src (s.i + j) ^^^ byteAt streamBlock j }

/-- The stream loop (`aes_pobc_siv.c:96-104`, `124-132`), writing from `src` into
the destination of `s`. -/
def sivStream (src : Buffer) (len : ℕ) (s : StreamState) : StreamState :=
  whileLoop len (fun s => decide (s.i < len)) (sivStreamStep src len) s

structure SivEncryptOutput where
  ret : Int
  c : Buffer
  iv : Block

/-- `aes_pobc_siv_encrypt` (`aes_pobc_siv.c:79-107`). -/
def aesPobcSivEncrypt (lib : Mbedtls) (c₀ : Buffer) (iv₀ : Block) (m : Buffer) (mlen : ℕ)
    (ad : Buffer) (adlen : ℕ) (k : Block) : SivEncryptOutput :=
  let mac := pobcMac lib 0 iv₀ ad adlen m mlen k
  if mac.ret ≠ 0 then ⟨mac.ret, c₀, mac.iv⟩
  else
    let ret := lib.setkeyEnc 1 k
    if ret ≠ 0 then ⟨ret, c₀, mac.iv⟩
    else
      let s := sivStream m mlen ⟨0, ⟨lib.cryptEcb k, []⟩, mac.iv, c₀⟩
      ⟨0, s.c, mac.iv⟩

structure SivDecryptOutput where
  ret : Int
  m : Buffer

/-- `aes_pobc_siv_decrypt` (`aes_pobc_siv.c:109-143`). -/
def aesPobcSivDecrypt (lib : Mbedtls) (m₀ : Buffer) (c : Buffer) (clen : ℕ) (ad : Buffer)
    (adlen : ℕ) (iv : Block) (k : Block) : SivDecryptOutput :=
  let ret := lib.setkeyEnc 0 k
  if ret ≠ 0 then ⟨ret, m₀⟩
  else
    let s := sivStream c clen ⟨0, ⟨lib.cryptEcb k, []⟩, iv, m₀⟩
    let mac := pobcMac lib 1 zeroBlock ad adlen s.c clen k
    if mac.ret ≠ 0 then ⟨mac.ret, s.c⟩
    else if iv ≠ mac.iv then ⟨-1, writeBytes s.c 0 clen fun _ => 0⟩
    else ⟨0, s.c⟩

/-! ### The mac loops -/

/-- The running nonce at the head of round `i`. -/
def macNonce (data : Buffer) (datalen : ℕ) : ℕ → Block
  | 0 => macStart
  | i + 1 => gcmIncr (xorBlocks (macNonce data datalen i) (padBlock data datalen i))

def macInput (data : Buffer) (datalen i : ℕ) : Block :=
  xorBlocks (macNonce data datalen i) (padBlock data datalen i)

def macInputs (data : Buffer) (datalen : ℕ) : List Block :=
  (List.range (datalen / 16 + 1)).map (macInput data datalen)

/-- Byte column `j` of the XOR of the images of a list of blocks. -/
def laneSum (E : Block → Block) (j : Fin 16) (l : List Block) : AesField :=
  (l.map fun x => lane (E x j)).sum

theorem laneSum_append (E : Block → Block) (j : Fin 16) (l l' : List Block) :
    laneSum E j (l ++ l') = laneSum E j l + laneSum E j l' := by
  rw [laneSum, List.map_append, List.sum_append]
  rfl

structure MacInv (data : Buffer) (datalen : ℕ) (ctx : AesContext) (y : Block) (n : ℕ)
    (s : MacState) : Prop where
  crypt : s.ctx.crypt = ctx.crypt
  inputs : s.ctx.inputs = ctx.inputs ++ (List.range n).map (macInput data datalen)
  nonce : s.nonce = macNonce data datalen n
  y : ∀ j, lane (s.y j) = lane (y j) +
    laneSum ctx.crypt j ((List.range n).map (macInput data datalen))

theorem macInv_zero (data : Buffer) (datalen : ℕ) (ctx : AesContext) (y : Block) :
    MacInv data datalen ctx y 0 ⟨ctx, y, macStart⟩ where
  crypt := rfl
  inputs := (List.append_nil _).symm
  nonce := rfl
  y _ := (add_zero _).symm

theorem macInv_step (data : Buffer) (datalen : ℕ) (ctx : AesContext) (y : Block) (n : ℕ)
    (s : MacState) (h : MacInv data datalen ctx y n s) :
    MacInv data datalen ctx y (n + 1) (macStep data datalen n s) where
  crypt := h.crypt
  inputs := by
    simp only [macStep, aesEcbEncryptSafe, h.inputs, h.nonce, List.range_succ, List.map_append,
      List.map_cons, List.map_nil, List.append_assoc, macInput]
  nonce := by
    simp only [macStep, h.nonce, macNonce]
  y j := by
    have hinput : xorBlocks s.nonce (padBlock data datalen n) = macInput data datalen n := by
      rw [h.nonce, macInput]
    rw [List.range_succ, List.map_append, laneSum_append, ← add_assoc, ← h.y j]
    simp only [macStep, aesEcbEncryptSafe, hinput, h.crypt, xorBlocks, lane_xor, laneSum,
      List.map_cons, List.map_nil, List.sum_singleton]

theorem macLoop_inv (data : Buffer) (datalen : ℕ) (ctx : AesContext) (y : Block) :
    MacInv data datalen ctx y (datalen / 16 + 1) (macLoop data datalen ctx y) :=
  forRange_inv (MacInv data datalen ctx y) (datalen / 16 + 1) (macStep data datalen) _
    (macInv_zero data datalen ctx y) fun n _ s hs => macInv_step data datalen ctx y n s hs

def macSum (E : Block → Block) (inputs : List Block) : Block :=
  fun j => (laneSum E j inputs).bits

theorem pobcMac_spec (lib : Mbedtls) (call : ℕ) (iv₀ : Block) (ad : Buffer) (adlen : ℕ)
    (m : Buffer) (mlen : ℕ) (k : Block) (hkey : lib.setkeyEnc call k = 0) :
    let inputs := macInputs ad adlen ++ macInputs m mlen
    let final := finalNonce (macSum (lib.cryptEcb k) inputs)
    pobcMac lib call iv₀ ad adlen m mlen k = ⟨0, lib.cryptEcb k final, inputs ++ [final]⟩ := by
  have had := macLoop_inv ad adlen ⟨lib.cryptEcb k, []⟩ zeroBlock
  have hm := macLoop_inv m mlen (macLoop ad adlen ⟨lib.cryptEcb k, []⟩ zeroBlock).ctx
    (macLoop ad adlen ⟨lib.cryptEcb k, []⟩ zeroBlock).y
  have hy : (macLoop m mlen (macLoop ad adlen ⟨lib.cryptEcb k, []⟩ zeroBlock).ctx
      (macLoop ad adlen ⟨lib.cryptEcb k, []⟩ zeroBlock).y).y =
      macSum (lib.cryptEcb k) (macInputs ad adlen ++ macInputs m mlen) := by
    funext j
    apply lane_inj
    have hzero : lane (zeroBlock j) = 0 := rfl
    rw [hm.y, had.y, had.crypt, hzero, zero_add, ← laneSum_append]
    rfl
  have hinputs := hm.inputs
  have hcrypt := hm.crypt
  rw [had.inputs, List.nil_append] at hinputs
  rw [had.crypt] at hcrypt
  simp only [pobcMac, hkey, ne_eq, not_true_eq_false, if_false, aesEcbEncryptSafe, hinputs, hcrypt,
    hy, macInputs]

theorem padBlock_congr (data data' : Buffer) (datalen i : ℕ) (h : ∀ p < datalen, data p = data' p) :
    padBlock data datalen i = padBlock data' datalen i := by
  have hcopied : (fun j : Fin 16 =>
      if j.val < (if datalen - i * 16 < 16 then datalen - i * 16 else 16)
      then data (i * 16 + j) else zeroBlock j) =
      fun j : Fin 16 => if j.val < (if datalen - i * 16 < 16 then datalen - i * 16 else 16)
      then data' (i * 16 + j) else zeroBlock j := by
    funext j
    have hj := j.isLt
    by_cases hlt : j.val < if datalen - i * 16 < 16 then datalen - i * 16 else 16
    · rw [if_pos hlt, if_pos hlt, h (i * 16 + j) (by split at hlt <;> omega)]
    · rw [if_neg hlt, if_neg hlt]
  simp only [padBlock]
  rw [hcopied]

theorem macInputs_congr (data data' : Buffer) (datalen : ℕ) (h : ∀ p < datalen, data p = data' p) :
    macInputs data datalen = macInputs data' datalen := by
  have hpad := fun i => padBlock_congr data data' datalen i h
  have hnonce : ∀ i, macNonce data datalen i = macNonce data' datalen i := by
    intro i
    induction i with
    | zero => rfl
    | succ i ih => simp only [macNonce, ih, hpad]
  refine List.map_congr_left fun i _ => ?_
  simp only [macInput, hnonce, hpad]

def chained (data : List Byte) : List Block := macInputs (bufferOf data) data.length

def sivIv (E : Block → Block) (ad m : List Byte) : Block :=
  E (finalNonce (macSum E (chained ad ++ chained m)))

/-! ### The stream loops -/

theorem sivStream_c (src : Buffer) (len : ℕ) (s₀ : StreamState) (h0 : s₀.i = 0) (p : ℕ) :
    (sivStream src len s₀).c p = if p < len then
      src p ^^^ ctrStream gcmIncr s₀.ctx.crypt s₀.nonceCounter p else s₀.c p := by
  -- after the last, possibly short, chunk `i` is no longer a multiple of 16
  let I (s : StreamState) : Prop := s.i ≤ len ∧ s.ctx.crypt = s₀.ctx.crypt ∧
    (∀ p, s.c p = if p < s.i then
      src p ^^^ ctrStream gcmIncr s₀.ctx.crypt s₀.nonceCounter p else s₀.c p) ∧
    (s.i < len → ∃ t, s.i = 16 * t ∧ s.nonceCounter = gcmIncr^[t] s₀.nonceCounter)
  have hstep : ∀ s, I s → decide (s.i < len) = true → I (sivStreamStep src len s) ∧
      len - (sivStreamStep src len s).i < len - s.i := by
    rintro s ⟨_, hcrypt, hc, hcounter⟩ hcond
    have hlt : s.i < len := of_decide_eq_true hcond
    obtain ⟨t, ht, hnonce⟩ := hcounter hlt
    have hi' : (sivStreamStep src len s).i = s.i + if len - s.i < 16 then len - s.i else 16 := rfl
    refine ⟨⟨by split at hi' <;> omega, hcrypt, ?_, ?_⟩, by split at hi' <;> omega⟩
    · refine writeBytes_prefix s.c s₀.c _
        (fun j => src (s.i + j) ^^^ byteAt (s.ctx.crypt s.nonceCounter) j) s.i _ hc fun j hj => ?_
      rw [hcrypt, hnonce, ht, ctrStream_block gcmIncr _ _ t j (by split at hj <;> omega)]
    · intro hmore
      refine ⟨t + 1, by split at hi' <;> omega, ?_⟩
      rw [Function.iterate_succ_apply', ← hnonce]
      rfl
  have hinit : I s₀ := by
    refine ⟨by omega, rfl, ?_, fun _ => ⟨0, by omega, rfl⟩⟩
    intro p
    rw [h0]
    simp
  obtain ⟨⟨hle, _, hc, _⟩, hexit⟩ := whileLoop_inv I (fun s => len - s.i)
    (fun s => decide (s.i < len)) (sivStreamStep src len) hstep len s₀ hinit (by omega)
  have hge : ¬ (sivStream src len s₀).i < len := of_decide_eq_false hexit
  have hend : (sivStream src len s₀).i = len := Nat.le_antisymm hle (Nat.not_lt.mp hge)
  have hp := hc p
  rwa [← sivStream, hend] at hp

end Pobc.Iot
