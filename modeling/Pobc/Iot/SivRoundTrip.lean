import Pobc.Aes.Fips197
import Pobc.Iot.AesPobcSiv

/-!
# AES-POBC-SIV decryption accepts what encryption produces

Both directions run one keystream, started at the IV, over the text, so
decryption recovers the only message whose encryption can give the ciphertext;
the recomputed IV then decides whether it does.
-/

namespace Pobc.Iot

def sivText (E : Block → Block) (iv : Block) (text : List Byte) : List Byte :=
  xorStream (ctrStream gcmIncr E iv) text

/-- `aes_pobc_siv_encrypt` on byte strings: return code, ciphertext and IV. -/
def sivEncrypt (lib : Mbedtls) (k : Block) (c₀ : Buffer) (iv₀ : Block) (m ad : List Byte) :
    Int × List Byte × Block :=
  let out := aesPobcSivEncrypt lib c₀ iv₀ (bufferOf m) m.length (bufferOf ad) ad.length k
  (out.ret, bytesOf out.c m.length, out.iv)

/-- `aes_pobc_siv_decrypt` on byte strings: return code and message buffer. -/
def sivDecrypt (lib : Mbedtls) (k : Block) (m₀ : Buffer) (c ad : List Byte) (iv : Block) :
    Int × List Byte :=
  let out := aesPobcSivDecrypt lib m₀ (bufferOf c) c.length (bufferOf ad) ad.length iv k
  (out.ret, bytesOf out.m c.length)

/- The buffer a stream loop fills holds the text under the keystream. -/
theorem bytesOf_sivStream (text : List Byte) (ctx : AesContext) (iv : Block) (dst : Buffer) :
    bytesOf (sivStream (bufferOf text) text.length ⟨0, ctx, iv, dst⟩).c text.length =
      sivText ctx.crypt iv text := by
  refine bytesOf_congr _ _ _ fun p hp => ?_
  rw [sivStream_c (bufferOf text) text.length ⟨0, ctx, iv, dst⟩ rfl p, if_pos hp]

theorem sivEncrypt_eq (lib : Mbedtls) (k : Block) (c₀ : Buffer) (iv₀ : Block) (m ad : List Byte)
    (hmac : lib.setkeyEnc 0 k = 0) (hstream : lib.setkeyEnc 1 k = 0) :
    sivEncrypt lib k c₀ iv₀ m ad =
      (0, sivText (lib.cryptEcb k) (sivIv (lib.cryptEcb k) ad m) m,
        sivIv (lib.cryptEcb k) ad m) := by
  have hspec := pobcMac_spec lib 0 iv₀ (bufferOf ad) ad.length (bufferOf m) m.length k hmac
  have htext := bytesOf_sivStream m ⟨lib.cryptEcb k, []⟩ (sivIv (lib.cryptEcb k) ad m) c₀
  simp only [sivEncrypt, aesPobcSivEncrypt, hspec, hstream, ne_eq, not_true_eq_false, if_false]
  exact congrArg (fun c => ((0 : Int), c, sivIv (lib.cryptEcb k) ad m)) htext

theorem sivDecrypt_eq (lib : Mbedtls) (k : Block) (m₀ : Buffer) (c ad : List Byte) (iv : Block)
    (hstream : lib.setkeyEnc 0 k = 0) (hmac : lib.setkeyEnc 1 k = 0) :
    let E := lib.cryptEcb k
    let m := sivText E iv c
    sivDecrypt lib k m₀ c ad iv =
      if iv = sivIv E ad m then (0, m) else (-1, List.replicate c.length 0) := by
  intro E m
  let s := sivStream (bufferOf c) c.length ⟨0, ⟨E, []⟩, iv, m₀⟩
  have hbytes : bytesOf s.c c.length = m := bytesOf_sivStream c ⟨E, []⟩ iv m₀
  have hlen : m.length = c.length := length_xorStream _ _
  have hread : macInputs s.c c.length = chained m := by
    rw [chained, hlen, ← hbytes]
    exact macInputs_congr _ _ _ fun p hp => (bufferOf_bytesOf s.c c.length p hp).symm
  have hiv : (pobcMac lib 1 zeroBlock (bufferOf ad) ad.length s.c c.length k).iv =
      sivIv E ad m := by
    rw [pobcMac_spec lib 1 zeroBlock _ _ _ _ k hmac, hread]
    rfl
  have hret : (pobcMac lib 1 zeroBlock (bufferOf ad) ad.length s.c c.length k).ret = 0 := by
    rw [pobcMac_spec lib 1 zeroBlock _ _ _ _ k hmac]
  have hclear : bytesOf (writeBytes s.c 0 c.length fun _ => 0) c.length =
      List.replicate c.length 0 := by
    refine List.eq_replicate_iff.mpr ⟨length_bytesOf _ _, fun b hb => ?_⟩
    obtain ⟨p, hp, rfl⟩ := List.mem_map.mp hb
    have hlt := List.mem_range.mp hp
    have hin : 0 ≤ p ∧ p < 0 + c.length := by omega
    simp only [writeBytes, if_pos hin]
  have hout : sivDecrypt lib k m₀ c ad iv = if iv ≠ sivIv E ad m
      then (-1, bytesOf (writeBytes s.c 0 c.length fun _ => 0) c.length)
      else (0, bytesOf s.c c.length) := by
    simp only [sivDecrypt, aesPobcSivDecrypt, hstream, ne_eq, not_true_eq_false, if_false]
    rw [hret, hiv, if_neg (not_not.mpr rfl)]
    by_cases hok : iv = sivIv E ad m
    · rw [if_neg (not_not.mpr hok), if_neg (not_not.mpr hok)]
    · rw [if_pos hok, if_pos hok]
  rw [hout, hbytes, hclear, ite_not]

/-- Decryption returns 0 with `m` exactly when encrypting `m` gives the
ciphertext and the IV; otherwise it returns -1 and the message buffer is zero. -/
theorem sivDecrypt_accepts_iff (lib : Mbedtls) (k : Block) (m₀ c₀ : Buffer) (iv₀ : Block)
    (c ad : List Byte) (iv : Block) (hfirst : lib.setkeyEnc 0 k = 0)
    (hsecond : lib.setkeyEnc 1 k = 0) :
    (∀ m, sivDecrypt lib k m₀ c ad iv = (0, m) ↔ sivEncrypt lib k c₀ iv₀ m ad = (0, c, iv)) ∧
    ((¬ ∃ m, sivEncrypt lib k c₀ iv₀ m ad = (0, c, iv)) →
      sivDecrypt lib k m₀ c ad iv = (-1, List.replicate c.length 0)) := by
  have hdec := sivDecrypt_eq lib k m₀ c ad iv hfirst hsecond
  have hiff : ∀ m, sivEncrypt lib k c₀ iv₀ m ad = (0, c, iv) ↔
      iv = sivIv (lib.cryptEcb k) ad (sivText (lib.cryptEcb k) iv c) ∧
        sivText (lib.cryptEcb k) iv c = m := by
    intro m
    rw [sivEncrypt_eq lib k c₀ iv₀ m ad hfirst hsecond, Prod.mk.injEq, Prod.mk.injEq]
    constructor
    · rintro ⟨_, htext, hiv⟩
      have hm : sivText (lib.cryptEcb k) iv c = m := by
        rw [← htext, hiv]
        exact xorStream_xorStream _ _
      rw [hm]
      exact ⟨hiv.symm, rfl⟩
    · rintro ⟨hiv, rfl⟩
      rw [← hiv]
      exact ⟨rfl, xorStream_xorStream _ _, rfl⟩
  constructor
  · intro m
    rw [hiff, hdec]
    split
    · rename_i h
      rw [Prod.mk.injEq]
      exact ⟨fun hm => ⟨h, hm.2⟩, fun hm => ⟨rfl, hm.2⟩⟩
    · rename_i h
      have hret : (-1 : Int) ≠ 0 := by decide
      exact ⟨fun hm => absurd (congrArg Prod.fst hm) hret, fun hm => absurd hm.1 h⟩
  · intro hnone
    rw [hdec, if_neg]
    intro h
    exact hnone ⟨_, (hiff _).mpr ⟨h, rfl⟩⟩

/-- mbedTLS with 128-bit keys. -/
def aesMbedtls : Mbedtls := ⟨fun _ _ => 0, Aes.aes128⟩

/- Two whole blocks and a partial one come back under AES-128. -/
theorem sivDecrypt_accepts_iff_example :
    let k : Block := fun j => BitVec.ofNat 8 (3 * j)
    let m : List Byte := (List.range 37).map (BitVec.ofNat 8)
    let ad : List Byte := (List.range 19).map (BitVec.ofNat 8)
    let out := sivEncrypt aesMbedtls k (fun _ => 0) zeroBlock m ad
    sivDecrypt aesMbedtls k (fun _ => 0) out.2.1 ad out.2.2 = (0, m) := by
  intro k m ad out
  exact ((sivDecrypt_accepts_iff aesMbedtls k (fun _ => 0) (fun _ => 0) zeroBlock out.2.1 ad out.2.2
    rfl rfl).1 m).mpr rfl

end Pobc.Iot
